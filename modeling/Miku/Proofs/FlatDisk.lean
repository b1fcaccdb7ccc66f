import Miku.Lib.Run
import Miku.Proofs.WriteZeroes

namespace Miku.Block
open Lib BufferCache Function Option

/-- The devices as plain arrays of sectors. -/
abbrev Disks := Nat → Sectors

/-- What a call does to the arrays. Zeroing a read-only device is refused. -/
def Disks.apply (readOnly : Nat → Bool) (f : Disks) : Call → Disks
  | .read .. | .flush _ => f
  | .write dev lba count buf | .writeSync dev lba count buf | .writeBarrier dev lba count buf =>
    update f dev (blit (f dev) lba buf.data 0 count)
  | .writeZeroes dev lba count =>
    if readOnly dev then f else update f dev (blit (f dev) lba zeros 0 count)

namespace Layer

variable {s t : Layer} {v a lba count : Nat} {buf : Buf} {c : Call} {f : Disks}

def isReadOnly (s : Layer) (v : Nat) : Bool := ((s.slotRef v).map Device.readOnly).getD false

/-- The request lies on a registered device and fits the caller's buffer. -/
def InRange (s : Layer) : Call → Prop
  | .read dev lba count buf | .write dev lba count buf | .writeSync dev lba count buf
  | .writeBarrier dev lba count buf =>
    (s.slotRef dev).isSome = true ∧ lba + count ≤ s.totalOf dev ∧ count ≤ buf.len
  | .writeZeroes dev lba count => (s.slotRef dev).isSome = true ∧ lba + count ≤ s.totalOf dev
  | .flush dev => (s.slotRef dev).isSome = true

/-- The readahead of a read pushes nothing out that its own window holds, and a
range to be zeroed fits the zero buffer. -/
def CallOk (s : Layer) : Call → Prop
  | .read dev lba count _ => ∀ k ∈ chunksOf lba count, WindowClear s dev k
  | .writeZeroes dev lba count => s.isReadOnly dev = true ∨ ZeroFits lba (lba + count)
  | _ => True

instance : (s : Layer) → (c : Call) → Decidable (InRange s c)
  | s, .read dev lba count buf | s, .write dev lba count buf | s, .writeSync dev lba count buf
  | s, .writeBarrier dev lba count buf =>
    inferInstanceAs (Decidable ((s.slotRef dev).isSome = true ∧ lba + count ≤ s.totalOf dev ∧
      count ≤ buf.len))
  | s, .writeZeroes dev lba count =>
    inferInstanceAs (Decidable ((s.slotRef dev).isSome = true ∧ lba + count ≤ s.totalOf dev))
  | s, .flush dev => inferInstanceAs (Decidable ((s.slotRef dev).isSome = true))

instance : (s : Layer) → (c : Call) → Decidable (CallOk s c)
  | s, .read dev lba count _ =>
    inferInstanceAs (Decidable (∀ k ∈ chunksOf lba count, WindowClear s dev k))
  | s, .writeZeroes dev lba count =>
    inferInstanceAs (Decidable (s.isReadOnly dev = true ∨ lba + count ≤ lba ∨
      lba + count - lba ≤ chunkSectors ∨ (lba + chunkSectors - 1) / chunkSectors * chunkSectors <
        (lba + count) / chunkSectors * chunkSectors))
  | _, .write .. | _, .writeSync .. | _, .writeBarrier .. | _, .flush _ =>
    inferInstanceAs (Decidable True)

/-- One call after another, whatever they return. -/
def callStep (s : Layer) (c : Call) : Layer := after (exec c) s

theorem after_of_wp {α : Type} {x : LayerM α} {P : Layer → Prop}
    (h : Wp x s (fun _ t => P t) (fun _ t => P t)) : P (after x s) := by
  unfold Wp at h
  unfold after
  cases hx : x s with
  | ok r t | error e t =>
    rw [hx] at h
    exact h

/-- The cache over calm devices shows the arrays `f`. -/
structure Represents (s₀ s : Layer) (f : Disks) : Prop where
  settled : Settled True s
  shape : ∀ v, s.shape v = s₀.shape v
  view : ∀ v a, s.view v a = f v a

theorem isReadOnly_eq_shape (s : Layer) (v : Nat) :
    s.isReadOnly v = ((s.shape v).map (fun p => p.2.1)).getD false := by
  unfold isReadOnly shape
  cases s.slotRef v <;> rfl

theorem Represents.spliced {data : Sectors} (h : Represents s₀ s f)
    (ht : Settled True t) (halt : Alters s t (Span v lba count))
    (hview : ∀ a, lba ≤ a ∧ a < lba + count → t.view v a = data (a - lba)) :
    Represents s₀ t (update f v (blit (f v) lba data 0 count)) := by
  refine ⟨ht,fun w => (halt.shape w).trans (h.shape w),?_⟩
  intro w a
  by_cases hin : Span v lba count w a
  · obtain ⟨rfl,hin⟩ := hin
    rw [update_self,blit_in hin,hview a hin,Nat.zero_add]
  · rw [halt.view w a hin,h.view]
    by_cases hw : w = v
    · subst hw
      rw [update_self,blit_out (fun h => hin ⟨rfl,h⟩)]
    · rw [update_of_ne hw]

theorem Represents.unchanged (h : Represents s₀ s f) (ht : Settled True t)
    (href : Refreshes s t) : Represents s₀ t f :=
  ⟨ht,fun w => (href.alters.shape w).trans (h.shape w),
    fun w a => (href.alters.view w a id).trans (h.view w a)⟩

theorem Represents.sound (h : Represents s₀ s f) :
    Sound False True (fun _ => False) s := h.settled.sound

theorem call_step (hsize : ∀ v, s.totalOf v < 2 ^ 64) (h : Represents s₀ s f)
    (hin : InRange s c) (hok : CallOk s c) :
    Represents s₀ (callStep s c) (Disks.apply s₀.isReadOnly f c) := by
  unfold callStep
  refine after_of_wp (P := fun t => Represents s₀ t (Disks.apply s₀.isReadOnly f c)) ?_
  cases c with
  | read dev lba count buf =>
    refine .bind ((read_wp h.sound hok (fun _ => ⟨hin.2.1,hin.2.2⟩)).imp ?_
      (fun e t he => absurd trivial he.notCalm))
    rintro out t ⟨⟨ht,href⟩,-⟩
    exact .pure (h.unchanged ht.settled href)
  | write dev lba count buf =>
    exact (write_wp h.sound (fun h => h.elim) (fun _ => hin.2)).imp
      (fun _ t ⟨ht,halt,hview⟩ => h.spliced ht.settled halt hview)
      (fun e t he => absurd trivial he.notCalm)
  | writeSync dev lba count buf =>
    exact (write_sync_wp (p := False) h.settled.coherent (fun h => h.elim)
      (fun hq => ⟨h.settled.calm hq,hin.2⟩)).imp
      (fun _ t ⟨hcoh,hcar,halt,hview,_⟩ =>
        h.spliced ⟨hcoh,fun hq => hcar.2 (h.settled.calm hq)⟩ halt hview)
      (fun e t he => absurd trivial he.notCalm)
  | writeBarrier dev lba count buf =>
    exact (write_barrier_wp (p := False) h.settled.coherent (fun h => h.elim)
      (fun hq => ⟨h.settled.calm hq,hin.2⟩)).imp
      (fun _ t ⟨hcoh,hcalm,halt,hview⟩ => h.spliced ⟨hcoh,hcalm⟩ halt hview)
      (fun e t he => absurd trivial he.notCalm)
  | writeZeroes dev lba count =>
    obtain ⟨d,hd⟩ := isSome_iff_exists.mp hin.1
    have hro : s₀.isReadOnly dev = d.readOnly := by
      rw [isReadOnly_eq_shape,← h.shape,← isReadOnly_eq_shape]
      simp [isReadOnly,hd]
    simp only [Disks.apply,hro]
    cases hdr : d.readOnly with
    | true =>
      refine (write_zeroes_readOnly hd hdr).imp (fun _ _ h => h.elim) ?_
      rintro e t rfl
      exact h
    | false =>
      have hend : s.zeroEnd dev lba count = lba + count := by
        have := hin.2
        have := hsize dev
        unfold zeroEnd
        omega
      have hfit : ZeroFits lba (lba + count) := by
        refine hok.resolve_left ?_
        simp only [isReadOnly,hd,map_some,getD_some,hdr]
        exact fun h => (nomatch h)
      refine (write_zeroes_call_wp h.settled (by rwa [hend]) (fun _ => ⟨d,hd,hdr⟩)).imp ?_
        (fun e t he => absurd trivial he.2)
      intro _ t hz
      rw [hend,Nat.add_sub_cancel_left] at hz
      exact h.spliced hz.settled hz.alters (fun a ha => hz.zero a ha)
  | flush dev =>
    refine (flush_wp (p := False) h.settled.coherent (fun h => h.elim)
      (fun hq => ⟨h.settled.calm hq,isSome_iff_exists.mp hin⟩)).imp ?_
      (fun e t he => absurd trivial he.notCalm)
    exact fun _ t ⟨hcoh,hcalm,href,_⟩ => h.unchanged ⟨hcoh,hcalm⟩ href

/-- Nothing is cached yet, every device works, and sector numbers do not wrap. -/
structure Fresh (s : Layer) : Prop where
  empty : s.cache = none ∨ s.cache = some .new
  calm : AllCalm s
  size : ∀ v, s.totalOf v + chunkSectors ≤ 2 ^ 64

theorem Fresh.represents (h : Fresh s) : Represents s s s.media := by
  have hnone : ∀ v k, s.line v k = none := by
    intro v k
    rcases h.empty with hc | hc
    · exact line_no_cache hc v k
    · rw [line_of_cache hc,line_new]
  refine ⟨⟨⟨?_,?_,?_⟩,fun _ => h.calm⟩,fun _ => rfl,fun v a => view_uncached (hnone v _)⟩
  · intro c hc
    rcases h.empty with hn | hn
    · cases hn.symm.trans hc
    · cases hn.symm.trans hc
      exact placed_new
  · intro v k ℓ hl
    rw [hnone] at hl
    cases hl
  · intro v k ℓ hl
    rw [hnone] at hl
    cases hl

/-- The cache is transparent: after any run every read returns the bytes of the
arrays, and a flush brings a device to them. -/
theorem cache_refines_disks (s : Layer) (cs : List Call) (h : Fresh s)
    (hin : Along callStep InRange s cs) (hok : Along callStep CallOk s cs) :
    (∀ v lba count buf, InRange (cs.foldl callStep s) (.read v lba count buf) →
      CallOk (cs.foldl callStep s) (.read v lba count buf) →
      ∃ out t, read v lba count buf (cs.foldl callStep s) = .ok out t ∧ ∀ i, i < count →
        out i = cs.foldl (Disks.apply s.isReadOnly) s.media v (lba + i)) ∧
    ∀ v, InRange (cs.foldl callStep s) (.flush v) →
      ∃ t d, flush v (cs.foldl callStep s) = .ok () t ∧ t.slotRef v = some d ∧
        ∀ a, d.media a = cs.foldl (Disks.apply s.isReadOnly) s.media v a := by
  have hboth : Along callStep (fun s c => InRange s c ∧ CallOk s c) s cs := hin.and hok
  have hrep : Represents s (cs.foldl callStep s) (cs.foldl (Disks.apply s.isReadOnly) s.media) := by
    refine hboth.simulation (R := Represents s) ?_ h.represents
    intro t f c ht hc
    refine call_step ?_ ht hc.1 hc.2
    intro v
    have := h.size v
    rw [totalOf_eq_shape,ht.shape,← totalOf_eq_shape]
    unfold chunkSectors at this
    omega
  generalize cs.foldl callStep s = t at hrep ⊢
  generalize cs.foldl (Disks.apply s.isReadOnly) s.media = f at hrep ⊢
  refine ⟨?_,?_⟩
  · intro v lba count buf hr hc
    obtain ⟨out,u,hx,-,hout⟩ := ((read_wp hrep.sound hc (fun _ => hr.2)).imp (fun _ _ h => h)
      (fun e u he => absurd trivial he.notCalm)).exists_ok
    refine ⟨out,u,hx,?_⟩
    intro i hi
    rw [hout i hi,hrep.view]
  · intro v hr
    obtain ⟨_,u,hx,-,-,-,d,hd,hmedia⟩ := ((flush_wp (p := False) (q := True)
      hrep.settled.coherent (fun h => h.elim)
      (fun hq => ⟨hrep.settled.calm hq,isSome_iff_exists.mp hr⟩)).imp (fun _ _ h => h)
      (fun e u he => absurd trivial he.notCalm)).exists_ok
    refine ⟨u,d,hx,hd,?_⟩
    intro a
    rw [(hmedia a).1,hrep.view]

/-- One writable device of the given size, all zeroes, under an empty cache. -/
def newDisk (total : Nat) : Layer :=
  ⟨fun v => if v = 0 then some ⟨total,false,false,false,zeros,zeros,.none,.online,0⟩ else none,
    some .new⟩

theorem newDisk_fresh {total : Nat} (h : total + chunkSectors ≤ 2 ^ 64) : Fresh (newDisk total) := by
  have hslot : ∀ v d, (newDisk total).slotRef v = some d →
      d = ⟨total,false,false,false,zeros,zeros,.none,.online,0⟩ := by
    intro v d hd
    unfold slotRef newDisk at hd
    split at hd
    · dsimp only at hd
      split at hd
      · cases hd
        rfl
      · cases hd
    · cases hd
  refine ⟨.inr rfl,?_,?_⟩
  · intro v d hd
    rw [hslot v d hd]
    exact ⟨fun h => (nomatch h),rfl⟩
  · intro v
    cases hd : (newDisk total).slotRef v with
    | none =>
      rw [totalOf,hd]
      decide
    | some d =>
      rw [totalOf_of_slot hd,hslot v d hd]
      exact h

def sevens : Buf := ⟨8,fun _ _ => 7⟩

def everyCall : List Call :=
  [.write 0 3 8 sevens,.read 0 0 24 ⟨24,zeros⟩,.writeSync 0 16 8 sevens,.writeBarrier 0 20 4 sevens,
    .writeZeroes 0 5 14,.flush 0,.read 0 8 16 ⟨16,zeros⟩]

theorem cache_refines_disks_calls : Fresh (newDisk 1024) ∧
    Along callStep InRange (newDisk 1024) everyCall ∧ Along callStep CallOk (newDisk 1024) everyCall ∧
    ∃ out t, read 0 0 24 ⟨24,zeros⟩ (everyCall.foldl callStep (newDisk 1024)) = .ok out t ∧
      ∀ i, i < 24 → out i = everyCall.foldl (Disks.apply (newDisk 1024).isReadOnly)
        (newDisk 1024).media 0 (0 + i) := by
  have hfresh : Fresh (newDisk 1024) := newDisk_fresh (by decide)
  obtain ⟨hin,hok,hr,hc⟩ : Along callStep InRange (newDisk 1024) everyCall ∧
      Along callStep CallOk (newDisk 1024) everyCall ∧
      InRange (everyCall.foldl callStep (newDisk 1024)) (.read 0 0 24 ⟨24,zeros⟩) ∧
      CallOk (everyCall.foldl callStep (newDisk 1024)) (.read 0 0 24 ⟨24,zeros⟩) := by
    decide +kernel
  exact ⟨hfresh,hin,hok,(cache_refines_disks (newDisk 1024) everyCall hfresh hin hok).1 0 0 24
    ⟨24,zeros⟩ hr hc⟩

/-- Eight dirty chunks fill the set of chunk 262144; a sequential read of the two
chunks before it fetches it in its window, and their inserts push it out. -/
def windowClash : List Call :=
  ([262144,32,96,160,224,288,352,416].map fun k => .write 0 (k * 8) 8 sevens) ++
    [.read 0 (262142 * 8) 8 ⟨8,zeros⟩,.read 0 (262143 * 8) 8 ⟨8,zeros⟩]

theorem readahead_returns_stale : Fresh (newDisk 2097216) ∧
    Along callStep InRange (newDisk 2097216) windowClash ∧
    InRange (windowClash.foldl callStep (newDisk 2097216)) (.read 0 (262144 * 8) 8 ⟨8,zeros⟩) ∧
    ¬ ∃ out t, read 0 (262144 * 8) 8 ⟨8,zeros⟩ (windowClash.foldl callStep (newDisk 2097216)) =
        .ok out t ∧
      ∀ i, i < 8 → out i = windowClash.foldl (Disks.apply (newDisk 2097216).isReadOnly)
        (newDisk 2097216).media 0 (262144 * 8 + i) := by
  obtain ⟨hin,hr,hbyte⟩ : Along callStep InRange (newDisk 2097216) windowClash ∧
      InRange (windowClash.foldl callStep (newDisk 2097216)) (.read 0 (262144 * 8) 8 ⟨8,zeros⟩) ∧
      (match read 0 (262144 * 8) 8 ⟨8,zeros⟩
      (windowClash.foldl callStep (newDisk 2097216)) with
      | .ok out _ => out 0 0
      | .error _ _ => 7) = 0 := by
    decide +kernel
  refine ⟨newDisk_fresh (by decide),hin,hr,?_⟩
  rintro ⟨out,t,hx,hout⟩
  have hflat : windowClash.foldl (Disks.apply (newDisk 2097216).isReadOnly)
      (newDisk 2097216).media 0 (262144 * 8 + 0) 0 = 7 := by decide +kernel
  rw [hx] at hbyte
  have hsame := congrFun (hout 0 (by decide)) 0
  rw [hflat] at hsame
  exact absurd (hbyte.symm.trans hsame) (by decide)

end Layer

/-- The bytes of the last write to a sector, if that write returned `Ok`. -/
abbrev Acks := Nat → Nat → Option Sector

/-- A write attempt replaces what was acknowledged for its sectors. -/
def Acks.record (acks : Acks) (dev lba count : Nat) (data : Option Sectors) : Acks := fun v a =>
  if v = dev ∧ lba ≤ a ∧ a < lba + count then data.map (fun d => d (a - lba)) else acks v a

/-- The layer with the log of its acknowledged writes. -/
structure Logged where
  layer : Layer
  acks : Acks

namespace Layer

variable {s t : Layer} {v a lba count : Nat} {ℓ : Line} {buf : Buf} {α : Type}

/-- The caller's data, if the call returned. -/
def returned (x : LayerM α) (s : Layer) (data : Sectors) : Option Sectors :=
  match x s with
  | .ok _ _ => some data
  | .error _ _ => none

def ackStep (s : Layer) (acks : Acks) (ev : Event) : Acks :=
  match ev.call with
  | .write dev lba count buf | .writeSync dev lba count buf | .writeBarrier dev lba count buf =>
    acks.record dev lba count (returned (exec ev.call) (s.arm ev.faults) buf.data)
  | _ => acks

theorem arm_slot :
    (s.arm fs).slotRef v = (s.slotRef v).map (fun d => { d with faults := fs v }) := by
  unfold slotRef arm
  split <;> rfl

theorem arm_shape (s : Layer) (fs : Nat → Faults) (v : Nat) : (s.arm fs).shape v = s.shape v := by
  rw [shape,arm_slot,shape]
  cases s.slotRef v <;> rfl

theorem arm_media (s : Layer) (fs : Nat → Faults) (v a : Nat) : (s.arm fs).media v a = s.media v a := by
  rw [media,arm_slot,media]
  cases s.slotRef v <;> rfl

theorem arm_line (s : Layer) (fs : Nat → Faults) (v k : Nat) : (s.arm fs).line v k = s.line v k := rfl

theorem arm_view : (s.arm fs).view v a = s.view v a := by
  simp only [view,arm_line,arm_media]

theorem arm_total : (s.arm fs).totalOf v = s.totalOf v := by
  rw [totalOf_eq_shape,arm_shape,← totalOf_eq_shape]

theorem Coherent.arm (h : Coherent s) (fs : Nat → Faults) : Coherent (s.arm fs) :=
  h.of_lines h.placed (arm_line s fs) (arm_shape s fs) (arm_media s fs)

/-- The cache holds unwritten data of the device. -/
def dirtyDev (s : Layer) (v : Nat) : Bool := (s.cache.bind (fun c => c.lowestDirty v 0)).isSome

theorem dirtyDev_of_line (h : Coherent s) (hl : s.line v k = some ℓ) (hd : ℓ.dirty = true) :
    s.dirtyDev v = true := by
  cases hc : s.cache with
  | none =>
    rw [line_no_cache hc] at hl
    cases hl
  | some c =>
    rw [line_of_cache hc] at hl
    obtain ⟨i,hi,rfl⟩ := (line_eq_some (h.placed c hc)).mp hl
    rw [dirtyDev,hc,Option.bind_some]
    cases hlow : c.lowestDirty v 0 with
    | some b => rfl
    | none =>
      have hnone := lowest_dirty_spec hlow
      exact absurd ⟨k,hi,Nat.zero_le k,hd⟩ (hnone i (key_lt_slots (h.placed c hc) hi))

/-- Writes to every device with unwritten data get through. -/
def DirtySteady (s : Layer) : Prop := ∀ v, v < maxBlockDevices → s.dirtyDev v = true → Steady s v

instance (s : Layer) (v : Nat) : Decidable (Steady s v) :=
  match h : s.slotRef v with
  | none => isTrue (fun _ hd => nomatch (h.symm.trans hd))
  | some d => decidable_of_iff
      (d.state ≠ .offline ∧ Device.Recovers Device.maxRetries d.faults.writes)
      ⟨fun hd _ hd' => some.inj (h.symm.trans hd') ▸ hd,fun hs => hs d h⟩

instance (s : Layer) : Decidable (DirtySteady s) :=
  inferInstanceAs (Decidable (∀ v, v < maxBlockDevices → s.dirtyDev v = true → Steady s v))

theorem slotRef_lt (h : s.slotRef v = some d) : v < maxBlockDevices := by
  unfold slotRef at h
  split at h
  · assumption
  · cases h

theorem DirtySteady.sound (h : DirtySteady s) (hs : Coherent s) :
    Sound True False (fun v => s.dirtyDev v = true) s := by
  refine ⟨hs,?_,fun _ v k ℓ hl hd => dirtyDev_of_line hs hl hd,fun h => h.elim⟩
  intro _ v hv d hd
  exact h v (slotRef_lt hd) hv d hd

theorem DirtySteady.sound_with (h : DirtySteady s) (hs : Coherent s)
    (hdev : Steady s dev) : Sound True False (fun v => s.dirtyDev v = true ∨ v = dev) s := by
  have hsd := h.sound hs
  refine ⟨hs,?_,fun hp v k ℓ hl hd => .inl (hsd.dirty hp v k ℓ hl hd),fun h => h.elim⟩
  rintro hp v (hv | rfl)
  · exact hsd.steady hp v hv
  · exact hdev

/-- A barrier on the device ends with its write: by the FUA bit, or because its
flush does not fail. -/
def FuaSafe (s : Layer) (v : Nat) : Prop :=
  ∀ d, s.slotRef v = some d → d.nativeFua = true ∨ d.faults.flushes = []

def NoDirty (s : Layer) (v lba count : Nat) : Prop :=
  ∀ k ∈ chunksOf lba count, s.hasDirty v k = false

theorem NoDirty.clean (h : NoDirty s v lba count) (hs : Coherent s) (fs : Nat → Faults) :
    ∀ k ∈ chunksOf lba count, ∀ ℓ, (s.arm fs).line v k = some ℓ → ℓ.dirty = false := by
  intro k hk ℓ hl
  by_contra hd
  have hdirty := (hasDirty_iff hs).mpr ⟨ℓ,hl,by simpa using hd⟩
  rw [h k hk] at hdirty
  cases hdirty

/-- The commands that carry unwritten data to a device get through; reads may fail
in any way, and so may a direct write or a barrier that meets no unwritten data. -/
def EventOk (s : Layer) (ev : Event) : Prop :=
  match ev.call with
  | .read dev lba count _ =>
    (∀ k ∈ chunksOf lba count, WindowClear s dev k) ∧ DirtySteady (s.arm ev.faults)
  | .write dev _ _ _ => DirtySteady (s.arm ev.faults) ∧ Steady (s.arm ev.faults) dev
  | .writeSync dev lba count buf => NoDirty s dev lba count ∨
    (count ≤ buf.len ∧ lba + count ≤ s.totalOf dev ∧ Steady (s.arm ev.faults) dev)
  | .writeBarrier dev lba count buf => NoDirty s dev lba count ∨
    (count ≤ buf.len ∧ lba + count ≤ s.totalOf dev ∧ Steady (s.arm ev.faults) dev ∧
      FuaSafe (s.arm ev.faults) dev)
  | .flush dev => s.dirtyDev dev = true → Steady (s.arm ev.faults) dev
  | .writeZeroes .. => True

instance (s : Layer) (v : Nat) : Decidable (FuaSafe s v) :=
  match h : s.slotRef v with
  | none => isTrue (fun _ hd => nomatch (h.symm.trans hd))
  | some d => decidable_of_iff (d.nativeFua = true ∨ d.faults.flushes = [])
      ⟨fun hd _ hd' => some.inj (h.symm.trans hd') ▸ hd,fun hs => hs d h⟩

instance (s : Layer) (v lba count : Nat) : Decidable (NoDirty s v lba count) :=
  inferInstanceAs (Decidable (∀ k ∈ chunksOf lba count, s.hasDirty v k = false))

instance : (s : Layer) → (ev : Event) → Decidable (EventOk s ev)
  | s, ⟨.read dev lba count _,fs⟩ => inferInstanceAs (Decidable
      ((∀ k ∈ chunksOf lba count, WindowClear s dev k) ∧ DirtySteady (s.arm fs)))
  | s, ⟨.write dev _ _ _,fs⟩ =>
    inferInstanceAs (Decidable (DirtySteady (s.arm fs) ∧ Steady (s.arm fs) dev))
  | s, ⟨.writeSync dev lba count buf,fs⟩ => inferInstanceAs (Decidable (NoDirty s dev lba count ∨
      (count ≤ buf.len ∧ lba + count ≤ s.totalOf dev ∧ Steady (s.arm fs) dev)))
  | s, ⟨.writeBarrier dev lba count buf,fs⟩ => inferInstanceAs (Decidable (NoDirty s dev lba count ∨
      (count ≤ buf.len ∧ lba + count ≤ s.totalOf dev ∧ Steady (s.arm fs) dev ∧
        FuaSafe (s.arm fs) dev)))
  | s, ⟨.flush dev,fs⟩ =>
    inferInstanceAs (Decidable (s.dirtyDev dev = true → Steady (s.arm fs) dev))
  | _, ⟨.writeZeroes ..,_⟩ => inferInstanceAs (Decidable True)

/-- What every acknowledged sector shows. -/
structure Holds (l : Logged) : Prop where
  coherent : Coherent l.layer
  acked : ∀ v a x, l.acks v a = some x → l.layer.view v a = x

end Layer

/-- The calls in question, with sector numbers that do not wrap. -/
def Call.Plain : Call → Prop
  | .read _ lba count _ | .write _ lba count _ | .writeSync _ lba count _
  | .writeBarrier _ lba count _ => lba + count + chunkSectors ≤ 2 ^ 64
  | .flush _ => True
  | .writeZeroes .. => False

def Logged.step (l : Logged) (ev : Event) : Logged :=
  ⟨l.layer.step ev,l.layer.ackStep l.acks ev⟩

namespace Layer

variable {s t : Layer} {l : Logged} {ev : Event} {buf : Buf}

theorem Holds.unchanged (h : Holds l) (hcoh : Coherent t)
    (hview : ∀ v a, t.view v a = l.layer.view v a) : Holds ⟨t,l.acks⟩ :=
  ⟨hcoh,fun v a x hx => (hview v a).trans (h.acked v a x hx)⟩

theorem Holds.attempt (h : Holds l)
    (hx : Wp x (l.layer.arm fs)
      (fun _ t => Coherent t ∧ Alters (l.layer.arm fs) t (Span dev lba count) ∧
        ∀ a, lba ≤ a ∧ a < lba + count → t.view dev a = buf.data (a - lba))
      (Failed True False (l.layer.arm fs) (Span dev lba count))) : Holds ⟨after x (l.layer.arm fs),
      l.acks.record dev lba count (returned x (l.layer.arm fs) buf.data)⟩ := by
  unfold after returned Acks.record
  unfold Wp at hx
  cases hr : x (l.layer.arm fs) with
  | ok r t =>
    rw [hr] at hx
    obtain ⟨hcoh,halt,hview⟩ := hx
    refine ⟨hcoh,?_⟩
    intro v a y hy
    dsimp only at hy ⊢
    split at hy
    · rename_i hin
      cases hy
      rw [hin.1]
      exact hview a hin.2
    · rename_i hout
      rw [halt.view v a hout,arm_view]
      exact h.acked v a y hy
  | error e t =>
    rw [hr] at hx
    obtain ⟨hcoh,hview⟩ := hx.kept trivial
    refine ⟨hcoh,?_⟩
    intro v a y hy
    dsimp only at hy ⊢
    split at hy
    · cases hy
    · rename_i hout
      rw [hview v a hout,arm_view]
      exact h.acked v a y hy

theorem step_holds (h : Holds l) (hplain : ev.call.Plain) (hok : EventOk l.layer ev) :
    Holds (l.step ev) := by
  obtain ⟨call,fs⟩ := ev
  have harm := h.coherent.arm fs
  have hquiet : ∀ {x : LayerM Unit}, Wp x (l.layer.arm fs)
      (fun _ t => Coherent t ∧ Refreshes (l.layer.arm fs) t)
      (Failed True False (l.layer.arm fs) Nowhere) → Holds ⟨after x (l.layer.arm fs),l.acks⟩ := by
    intro x hx
    refine after_of_wp (P := fun t => Holds ⟨t,l.acks⟩) (hx.imp ?_ ?_)
    · exact fun _ t ⟨hcoh,href⟩ => h.unchanged hcoh
        (fun v a => (href.alters.view v a id).trans arm_view)
    · exact fun e t he => h.unchanged (he.kept trivial).1
        (fun v a => ((he.kept trivial).2 v a id).trans arm_view)
  cases call with
  | read dev lba count buf =>
    refine hquiet (.bind ((read_wp (hok.2.sound harm) hok.1 (fun h => h.elim)).mono ?_))
    exact fun out t ⟨⟨ht,href⟩,_⟩ => Wp.pure ⟨ht.coherent,href⟩
  | write dev lba count buf =>
    exact h.attempt ((write_wp (hok.1.sound_with harm hok.2) (fun _ => .inr rfl)
      (fun h => h.elim)).mono (fun _ t ⟨ht,halt,hview⟩ => ⟨ht.coherent,halt,hview⟩))
  | writeSync dev lba count buf =>
    refine h.attempt ((write_sync_wp (p := True) (q := False) harm (fun _ => ?_) (fun h => h.elim)).imp
      (fun _ t ⟨hcoh,_,halt,hview,_⟩ => ⟨hcoh,halt,hview⟩) (fun _ _ h => h))
    rcases hok with hn | ⟨hlen,hin,hst⟩
    · exact .inl (hn.clean h.coherent fs)
    · exact .inr ⟨hlen,by rwa [arm_total],hst⟩
  | writeBarrier dev lba count buf =>
    refine h.attempt ((write_barrier_wp (p := True) (q := False) harm (fun _ => ?_)
      (fun h => h.elim)).mono (fun _ t ⟨hcoh,_,halt,hview⟩ => ⟨hcoh,halt,hview⟩))
    rcases hok with hn | ⟨hlen,hin,hst,hfua⟩
    · exact .inl (hn.clean h.coherent fs)
    · exact .inr ⟨hlen,by rwa [arm_total],hst,hfua⟩
  | writeZeroes dev lba count => exact hplain.elim
  | flush dev =>
    refine hquiet ((flush_wp (p := True) (q := False) harm ?_ (fun h => h.elim)).imp
      (fun _ t ⟨hcoh,_,href,_⟩ => ⟨hcoh,href⟩) (fun _ _ h => h))
    exact fun _ k ℓ hl hd => hok (dirtyDev_of_line h.coherent hl hd)

/-- In a run whose write-back gets through, every acknowledged sector is on the
device or waits dirty in the cache, and whenever a flush returns `Ok` it is on
stable storage, whatever happens to the commands of that flush. -/
theorem acked_writes_survive (l : Logged) (evs : List Event) (h : Holds l)
    (hplain : ∀ ev ∈ evs, ev.call.Plain)
    (hok : Along Logged.step (fun l ev => EventOk l.layer ev) l evs) (v a : Nat) (x : Sector)
    (hx : (evs.foldl Logged.step l).acks v a = some x) :
    ((∃ ℓ, (evs.foldl Logged.step l).layer.line v (a / chunkSectors) = some ℓ ∧ ℓ.dirty = true ∧
        ℓ.data (a % chunkSectors) = x) ∨ (evs.foldl Logged.step l).layer.media v a = x) ∧
      ∀ fs t, flush v ((evs.foldl Logged.step l).layer.arm fs) = .ok () t →
        ∃ d, t.slotRef v = some d ∧ d.stable a = x := by
  have hends : Holds (evs.foldl Logged.step l) := by
    clear hx
    induction evs generalizing l with
    | nil => exact h
    | cons ev evs ih =>
      exact ih (l.step ev) (step_holds h (hplain ev List.mem_cons_self) hok.1)
        (fun e he => hplain e (List.mem_cons_of_mem ev he)) hok.2
  generalize evs.foldl Logged.step l = m at hx hends ⊢
  have hview := hends.acked v a x hx
  refine ⟨?_,?_⟩
  · cases hl : m.layer.line v (a / chunkSectors) with
    | none =>
      rw [view_uncached hl] at hview
      exact .inr hview
    | some ℓ =>
      rw [view_line hl] at hview
      cases hd : ℓ.dirty with
      | true => exact .inl ⟨ℓ,rfl,hd,hview⟩
      | false => exact .inr ((hends.coherent.clean_at hl hd).symm.trans hview)
  · intro fs t ht
    obtain ⟨-,-,-,d,hd,hmedia⟩ := (flush_wp (p := False) (q := False) (v := v)
      (hends.coherent.arm fs) (fun h => h.elim) (fun h => h.elim)).ok ht
    exact ⟨d,hd,by rw [(hmedia a).2,arm_view,hview]⟩

/-- A new disk, and nothing acknowledged yet. -/
def newLog (total : Nat) : Logged := ⟨newDisk total,fun _ _ => none⟩

theorem newLog_holds (h : total + chunkSectors ≤ 2 ^ 64) : Holds (newLog total) :=
  ⟨(newDisk_fresh h).represents.settled.coherent,fun _ _ _ hx => (nomatch hx)⟩

/-- The first `n` writes time out and leave the medium alone. -/
def slowWrites (n : Nat) : Nat → Faults := fun _ => ⟨[],List.replicate n (some (.timeout,fun _ => none)),[]⟩

/-- A write, a read that fails, a direct write that fails elsewhere, and a flush
whose first command needs two retries. -/
def roughRun : List Event :=
  [⟨.write 0 0 8 sevens,fun _ => .none⟩,
    ⟨.read 0 64 8 ⟨8,zeros⟩,fun _ => ⟨[some .timeout,some .timeout,some .timeout],[],[]⟩⟩,
    ⟨.writeSync 0 128 8 sevens,slowWrites 3⟩,⟨.flush 0,slowWrites 2⟩]

theorem acked_writes_survive_rough :
    Along Logged.step (fun l ev => EventOk l.layer ev) (newLog 1024) roughRun ∧
    ((∃ ℓ, (roughRun.foldl Logged.step (newLog 1024)).layer.line 0 (3 / chunkSectors) = some ℓ ∧
        ℓ.dirty = true ∧ ℓ.data (3 % chunkSectors) = fun _ => 7) ∨
      (roughRun.foldl Logged.step (newLog 1024)).layer.media 0 3 = fun _ => 7) ∧
    ∀ fs t, flush 0 ((roughRun.foldl Logged.step (newLog 1024)).layer.arm fs) = .ok () t →
      ∃ d, t.slotRef 0 = some d ∧ d.stable 3 = fun _ => 7 := by
  have hok : Along Logged.step (fun l ev => EventOk l.layer ev) (newLog 1024) roughRun := by
    decide +kernel
  have hplain : ∀ ev ∈ roughRun, ev.call.Plain := by
    simp [roughRun,Call.Plain,chunkSectors]
  have hx : (roughRun.foldl Logged.step (newLog 1024)).acks 0 3 = some (fun _ => 7) := by
    decide +kernel
  exact ⟨hok,acked_writes_survive (newLog 1024) roughRun (newLog_holds (by decide)) hplain hok 0 3 _ hx⟩

/-- A flush whose write fails for good: the chunk was marked clean before the
command went out. -/
def lostRun : List Event := [⟨.write 0 0 8 sevens,fun _ => .none⟩,⟨.flush 0,slowWrites 3⟩]

/-- The first byte of a sector on stable storage, after a call that has returned. -/
def stableByte (r : EStateM.Result Fail Layer Unit) (v a : Nat) : Option UInt8 :=
  match r with
  | .ok _ t => (t.slotRef v).map fun d => d.stable a 0
  | .error _ _ => none

theorem failed_flush_loses_write : (∀ ev ∈ lostRun, ev.call.Plain) ∧
    (lostRun.foldl Logged.step (newLog 1024)).acks 0 3 = some (fun _ => 7) ∧
    ¬ ((∃ ℓ, (lostRun.foldl Logged.step (newLog 1024)).layer.line 0 (3 / chunkSectors) = some ℓ ∧
        ℓ.dirty = true ∧ ℓ.data (3 % chunkSectors) = fun _ => 7) ∨
      (lostRun.foldl Logged.step (newLog 1024)).layer.media 0 3 = fun _ => 7) ∧
    ∃ t, flush 0 (lostRun.foldl Logged.step (newLog 1024)).layer = .ok () t ∧
      ∀ d, t.slotRef 0 = some d → d.stable 3 ≠ fun _ => 7 := by
  have hplain : ∀ ev ∈ lostRun, ev.call.Plain := by
    simp [lostRun,Call.Plain,chunkSectors]
  obtain ⟨hclean,hmedia,hflush⟩ :
      ((lostRun.foldl Logged.step (newLog 1024)).layer.line 0 (3 / chunkSectors)).map
        Line.dirty = some false ∧
      (lostRun.foldl Logged.step (newLog 1024)).layer.media 0 3 0 = 0 ∧
      stableByte (flush 0 (lostRun.foldl Logged.step (newLog 1024)).layer) 0 3 = some 0 := by
    decide +kernel
  refine ⟨hplain,by decide +kernel,?_,?_⟩
  · rintro (⟨ℓ,hl,hd,-⟩ | hm)
    · rw [hl,Option.map_some,hd] at hclean
      cases hclean
    · rw [hm] at hmedia
      exact absurd hmedia (by decide)
  · cases hx : flush 0 (lostRun.foldl Logged.step (newLog 1024)).layer with
    | error e t =>
      rw [hx] at hflush
      cases hflush
    | ok r t =>
      refine ⟨t,rfl,?_⟩
      intro d hd hs
      simp only [stableByte,hx,hd,Option.map_some,hs] at hflush
      exact absurd hflush (by decide)

end Layer

end Miku.Block
