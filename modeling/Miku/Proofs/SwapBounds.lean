import Miku.Mm.Swap
import Miku.Proofs.SwapRoundTrip

/-! Where the transfers of a swap area go. The number of slots comes from the header on the
disk alone, so the area can be longer than its partition. -/

namespace Miku.Mm
open Block Lib Lib.Bitmap SwapState

namespace SwapState

theorem allocSlot_frame {w : SwapState} (h : w.allocSlot = some (slot,w')) :
    w'.active = w.active ∧ w'.totalPages = w.totalPages ∧ w'.partitionLba = w.partitionLba := by
  obtain ⟨i,_,he⟩ := Option.map_eq_some_iff.mp h
  cases he
  exact ⟨rfl,rfl,rfl⟩

theorem freeSlot_frame (w : SwapState) (slot : Nat) :
    (w.freeSlot slot).active = w.active ∧ (w.freeSlot slot).totalPages = w.totalPages ∧
      (w.freeSlot slot).partitionLba = w.partitionLba := by
  unfold freeSlot
  repeat' split
  all_goals exact ⟨rfl,rfl,rfl⟩

theorem isUsed_range {w : SwapState} (h : w.isUsed slot = true) :
    0 < slot ∧ slot ≤ w.totalPages := by
  unfold isUsed at h
  split at h
  · cases h
  · omega

end SwapState

namespace Swap

/-- The area of `n` slots on device `dev` from `lba` on, if there is one in use, and all
transfers so far to slots of it. -/
structure Area (dev lba n : Nat) (s : Swap) : Prop where
  fixed : s.state.active = true →
    s.devId = dev ∧ s.state.partitionLba = lba ∧ s.state.totalPages = n
  slots : ∀ t ∈ s.transfers, ∃ k, 0 < k ∧ k ≤ n ∧ t = ⟨dev,(lba + k * 8) % 2 ^ 32⟩

variable {dev lba n : Nat} {s : Swap}

section

variable (h : Area dev lba n s)
include h

theorem Area.restate {w : SwapState} (hw : w.active = s.state.active ∧
    w.totalPages = s.state.totalPages ∧ w.partitionLba = s.state.partitionLba) :
    Area dev lba n { s with state := w } := by
  refine ⟨fun ha => ?_,h.slots⟩
  obtain ⟨hd,hl,hn⟩ := h.fixed (hw.1.symm.trans ha)
  exact ⟨hd,hw.2.2.trans hl,hw.2.1.trans hn⟩

theorem Area.transfer (ha : s.state.active = true)
    (hpos : 0 < slot) (hle : slot ≤ s.state.totalPages) :
    Area dev lba n (s.transfer s.devId (s.state.lbaForSlot slot)) := by
  obtain ⟨hd,hl,hn⟩ := h.fixed ha
  refine ⟨h.fixed,?_⟩
  intro t ht
  rcases List.mem_cons.mp ht with rfl | ht
  · refine ⟨slot,hpos,hn ▸ hle,?_⟩
    rw [hd,lbaForSlot,hl]
  · exact h.slots t ht

theorem swapOut_area (written : Except BlkError Unit) :
    Area dev lba n (s.swapOutInternal written).2 := by
  unfold swapOutInternal
  split
  · exact h
  · rename_i ha
    have ha : s.state.active = true := by simpa using ha
    split
    · exact h
    · rename_i slot w hal
      obtain ⟨hpos,_,_,hused,_⟩ := alloc_slot_spec hal
      have hframe := allocSlot_frame hal
      have hw := (h.restate hframe).transfer (hframe.1.trans ha) (Nat.pos_of_ne_zero hpos)
        (isUsed_range hused).2
      cases written <;> exact hw

theorem swapIn_area (slot : UInt32) (read : Except BlkError Unit) :
    Area dev lba n (s.swapInInternal slot read).2 := by
  unfold swapInInternal
  split
  · exact h
  · rename_i ha
    have ha : s.state.active = true := by simpa using ha
    split
    · exact h
    · rename_i hu
      have hr := isUsed_range (by simpa using hu : s.state.isUsed slot.toNat = true)
      have ht := h.transfer ha hr.1 hr.2
      cases read with
      | error e => exact ht
      | ok u => exact ht.restate (freeSlot_frame _ _)

theorem step_area (c : Call) : Area dev lba n (s.step c) := by
  cases c with
  | swapOut written => exact swapOut_area h written
  | swapIn slot read => exact swapIn_area h slot read
  | freeSlot slot =>
    show Area dev lba n (s.freeSwapSlot slot)
    unfold freeSwapSlot
    split
    · exact h
    · exact h.restate (freeSlot_frame _ _)
  | swapoff =>
    show Area dev lba n s.swapoff.2
    unfold swapoff
    repeat' split
    · exact h
    · exact h
    · exact ⟨(fun ha => nomatch ha),h.slots⟩

theorem run_area (cs : List Call) : Area dev lba n (cs.foldl step s) := by
  induction cs generalizing s with
  | nil => exact h
  | cons c cs ih => exact ih (step_area h c)

end

/-- The first `k` slots of the area are taken, and no others. -/
structure Filled (k : Nat) (s : Swap) : Prop where
  active : s.state.active = true
  most : s.state.totalPages ≤ swapMaxPages
  bits : ∀ i, bitAt s.state.bitmap i = decide (i < k)

theorem Filled.next (h : Filled k s) (hk : k < s.state.totalPages) :
    Filled (k + 1) (s.step (.swapOut (.ok ()))) ∧
      (s.step (.swapOut (.ok ()))).state.totalPages = s.state.totalPages ∧
      ⟨s.devId,s.state.lbaForSlot (k + 1)⟩ ∈ (s.step (.swapOut (.ok ()))).transfers := by
  have hmax : k < (0 + swapMaxPages / 64) * 64 := by
    have := h.most
    unfold swapMaxPages at *
    omega
  have hscan : s.state.allocScan 0 (swapMaxPages / 64) = some k := by
    have hfirst := (scanWords_first s.state.bitmap (swapMaxPages / 64) (show 0 * 64 % 64 = 0 from rfl)).eq_some
      (Nat.zero_le k) (by omega) (by rw [h.bits,decide_eq_false (Nat.lt_irrefl k)])
      fun i _ hi => by rw [h.bits,decide_eq_true hi]
    rw [allocScan_eq,hfirst]
    simp [hk]
  have hal : s.state.allocSlot = some (k + 1,
      { s.state with bitmap := putBit true s.state.bitmap k, usedPages := s.state.usedPages + 1 }) := by
    rw [allocSlot,hscan]
    rfl
  have hstep : s.step (.swapOut (.ok ())) = { s with
        state := { s.state with
            bitmap := putBit true s.state.bitmap k
            usedPages := s.state.usedPages + 1 } }.transfer s.devId (s.state.lbaForSlot (k + 1)) := by
    show (s.swapOutInternal (.ok ())).2 = _
    unfold swapOutInternal
    rw [h.active,hal]
    rfl
  rw [hstep]
  refine ⟨⟨h.active,h.most,fun i => ?_⟩,rfl,List.mem_cons_self⟩
  show bitAt (putBit true s.state.bitmap k) i = _
  rw [putBit_bitAt,h.bits]
  by_cases hi : i = k
  · rw [if_pos hi,decide_eq_true (by omega)]
  · rw [if_neg hi,decide_eq_decide]
    omega

theorem Filled.run (h : Filled k s) (m : Nat) (hm : k + m ≤ s.state.totalPages) :
    Filled (k + m) ((List.replicate m (.swapOut (.ok ()))).foldl step s) ∧
      ((List.replicate m (.swapOut (.ok ()))).foldl step s).state.totalPages = s.state.totalPages := by
  induction m generalizing s k with
  | zero => exact ⟨h,rfl⟩
  | succ m ih =>
    obtain ⟨hf,ht,_⟩ := h.next (by omega)
    obtain ⟨hr,htr⟩ := ih hf (by omega)
    rw [show k + (m + 1) = k + 1 + m by omega]
    exact ⟨hr,htr.trans ht⟩

/-- The slots that the header says there are. -/
def headerSlots (p : Bytes) : Nat := min ((le32 p 4 + 1) % 2 ^ 32 - 1) swapMaxPages

/-- All sectors of the transfer lie in the partition. -/
def Inside (dev : Nat) (partitionLba partitionSectors : UInt32) (t : Transfer) : Prop :=
  t.dev = dev ∧ partitionLba.toNat ≤ t.lba ∧
    t.lba + swapSecsPerPage ≤ partitionLba.toNat + partitionSectors.toNat

/-- The header's slots fit in the partition, and their addresses in 32 bits. -/
def Fits (partitionLba partitionSectors : UInt32) (p : Bytes) : Prop :=
  headerSlots p = 0 ∨ partitionLba.toNat + headerSlots p * 8 < 2 ^ 32 ∧
    (headerSlots p + 1) * 8 ≤ partitionSectors.toNat

theorem swapon_ok {s : Swap} {lba sectors : UInt32} {m : Nat}
    (h : swapon dev lba sectors page0 s₀ = (.ok m,s)) : ∃ p, page0 = .ok p ∧ s.devId = dev ∧
      s.state = ⟨true,lba.toNat,headerSlots p,0,fun _ => 0#64⟩ := by
  unfold swapon at h
  split at h
  · cases h
  · cases page0 with
    | error e => cases h
    | ok p =>
      dsimp only at h
      split at h
      · cases h
      · split at h
        · cases h
        · cases h
          exact ⟨p,rfl,rfl,rfl⟩

/-- Every transfer of every later run stays inside the partition if and only if the slots
of the header fit in it. -/
theorem swap_inside_iff (dev : Nat) (lba sectors : UInt32) (p : Bytes) (s₀ s : Swap) (m : Nat)
    (h : swapon dev lba sectors (.ok p) s₀ = (.ok m,s)) :
    (∀ cs : List Call, ∀ t ∈ (cs.foldl step { s with transfers := [] }).transfers,
      Inside dev lba sectors t) ↔ Fits lba sectors p := by
  obtain ⟨q,hq,hdev,hst⟩ := swapon_ok h
  cases hq
  have hmax : headerSlots p ≤ 65536 := Nat.min_le_right _ _
  constructor
  · intro hall
    by_cases hz : headerSlots p = 0
    · exact .inl hz
    have hf : Filled 0 { s with transfers := [] } := by
      refine ⟨by rw [hst],by rw [hst]; exact hmax,fun i => ?_⟩
      rw [hst]
      show (0#64).getLsbD (i % 64) = _
      simp
    -- all but one slot are taken by the run before, the last one by one more page
    have hin := hall (List.replicate (headerSlots p - 1) (.swapOut (.ok ())) ++ [.swapOut (.ok ())])
    have htot : ({ s with transfers := [] } : Swap).state.totalPages = headerSlots p := by rw [hst]
    obtain ⟨hr,htr⟩ := hf.run (headerSlots p - 1) (by omega)
    have harea : Area dev lba.toNat (headerSlots p) { s with transfers := [] } :=
      ⟨fun _ => ⟨hdev,by rw [hst],htot⟩,by simp⟩
    have hfix := (run_area harea (List.replicate (headerSlots p - 1) (.swapOut (.ok ())))).fixed hr.active
    obtain ⟨_,_,hmem⟩ := hr.next (by omega)
    rw [List.foldl_append] at hin
    obtain ⟨_,hlo,hhi⟩ := hin _ hmem
    have hlt := lba.toNat_lt
    simp only [lbaForSlot,hfix.2.1,swapSecsPerPage] at hlo hhi
    refine .inr ⟨?_,?_⟩ <;> omega
  · intro hfits cs t ht
    have harea : Area dev lba.toNat (headerSlots p) { s with transfers := [] } :=
      ⟨fun _ => ⟨hdev,by rw [hst],by rw [hst]⟩,by simp⟩
    obtain ⟨k,hpos,hle,rfl⟩ := (run_area harea cs).slots t ht
    rcases hfits with hz | ⟨hlo,hhi⟩
    · omega
    · refine ⟨rfl,?_,?_⟩
      · show lba.toNat ≤ (lba.toNat + k * 8) % 2 ^ 32
        rw [Nat.mod_eq_of_lt (by omega)]
        omega
      · show (lba.toNat + k * 8) % 2 ^ 32 + 8 ≤ _
        rw [Nat.mod_eq_of_lt (by omega)]
        omega

/-- The header of a partition of 96 sectors. -/
def smallHeader : Bytes :=
  put (put (put zeroBytes 0 (le32Bytes 1)) 4 (le32Bytes 11)) 4086 swapMagic

theorem swap_inside_small : (swapon 0 2048 96 (.ok smallHeader) .new).1 = .ok 12 ∧
    ∀ cs : List Call, ∀ t ∈ (cs.foldl step
      { (swapon 0 2048 96 (.ok smallHeader) .new).2 with transfers := [] }).transfers,
        Inside 0 2048 96 t := by
  have hok : (swapon 0 2048 96 (.ok smallHeader) .new).1 = .ok 12 := by decide
  refine ⟨hok,(swap_inside_iff 0 2048 96 smallHeader .new _ 12 (Prod.ext hok rfl)).mpr (.inr ?_)⟩
  decide

/-- The same header in a partition of 8 sectors: the first page written out lands behind
the partition. -/
theorem header_past_partition : (swapon 0 2048 8 (.ok smallHeader) .new).1 = .ok 12 ∧
    ⟨0,2056⟩ ∈ ((swapon 0 2048 8 (.ok smallHeader) .new).2.step (.swapOut (.ok ()))).transfers ∧
    ¬ Inside 0 2048 8 ⟨0,2056⟩ := by
  refine ⟨by decide,by decide +kernel,?_⟩
  rintro ⟨_,_,hend⟩
  exact absurd hend (by decide)

/-- What `mkswap` writes for a partition is taken by `swapon`, with all pages of the
partition, and it fits, unless the partition itself ends past the last 32-bit address. -/
theorem mkswap_fits {lba : UInt32} (h : mkswap lba sectors label = .ok p)
    (hs : s.state.active = false) (hend : lba.toNat + sectors.toNat ≤ 2 ^ 32) :
    (swapon dev lba sectors (.ok p) s).1 = .ok (sectors.toNat / swapSecsPerPage) ∧
      Fits lba sectors p := by
  unfold mkswap at h
  dsimp only at h
  split at h
  · cases h
  · cases h
    have hlt := sectors.toNat_lt
    unfold Fits headerSlots swapon
    simp (disch := omega) only [hs,le32_put_other,le32_put_self]
    unfold swapSecsPerPage swapMaxPages at *
    have hpages : ((sectors.toNat / 8 - 1) % 4294967296 + 1) % 2 ^ 32 = sectors.toNat / 8 := by omega
    rw [hpages]
    exact ⟨rfl,by omega⟩

theorem mkswap_fits_small : ∃ p, mkswap 2048 96 [] = .ok p ∧
    (swapon 0 2048 96 (.ok p) .new).1 = .ok 12 ∧ Fits 2048 96 p :=
  ⟨_,rfl,mkswap_fits rfl rfl (by decide)⟩

/-! The slots of a swap area. A slot is taken before its page is written, and is not given
back if the write fails. -/

open Function

/-- The operation comes back with an error. -/
def Fails (s : Swap) : Call → Prop
  | .swapOut written => (s.swapOutInternal written).1.isOk = false
  | .swapIn slot read => (s.swapInInternal slot read).1.isOk = false
  | .freeSlot _ => False
  | .swapoff => s.swapoff.1.isOk = false

/-- A swap-out that gets a slot and cannot write to it. -/
def Unwritten (s : Swap) (c : Call) : Prop :=
  ∃ e, c = .swapOut (.error e) ∧ s.state.active = true ∧ s.state.allocSlot.isSome

/-- The area, and the slots that hold a page: written to, and neither read back nor freed
since. -/
structure Pages where
  swap : Swap
  held : Nat → Bool

namespace Pages

def step (w : Pages) (c : Call) : Pages :=
  ⟨w.swap.step c,match c with
    | .swapOut written => match (w.swap.swapOutInternal written).1 with
      | .ok slot => update w.held slot true
      | .error _ => w.held
    | .swapIn slot read => if (w.swap.swapInInternal slot read).1.isOk then
        update w.held slot.toNat false else w.held
    | .freeSlot slot => update w.held slot.toNat false
    | .swapoff => w.held⟩

/-- The counter is right, and what holds a page is used. -/
structure Counted (w : Pages) : Prop where
  used : w.swap.state.usedPages = countBits true w.swap.state.bitmap w.swap.state.totalPages
  held : ∀ slot, w.held slot = true → w.swap.state.isUsed slot = true

end Pages

open Pages

variable {t : SwapState}

theorem isUsed_iff : t.isUsed slot = true ↔
    slot ≠ 0 ∧ slot ≤ t.totalPages ∧ bitAt t.bitmap (slot - 1) = true := by
  unfold SwapState.isUsed
  split
  · exact ⟨nofun,fun h => by omega⟩
  · exact ⟨fun h => ⟨by omega,by omega,h⟩,fun h => h.2.2⟩

theorem alloc_slot_counted (h : t.allocSlot = some (slot,t')) :
    t.isUsed slot = false ∧ (∀ k, t'.isUsed k = if k = slot then true else t.isUsed k) ∧
      (t.usedPages = countBits true t.bitmap t.totalPages →
        t'.usedPages = countBits true t'.bitmap t'.totalPages) := by
  obtain ⟨h0,-,hz,hu,-⟩ := alloc_slot_spec h
  obtain ⟨-,hle,-⟩ := isUsed_iff.mp hu
  obtain ⟨i,-,he⟩ := Option.map_eq_some_iff.mp h
  obtain ⟨rfl,rfl⟩ := Prod.mk.inj he
  dsimp only at hle
  rw [Nat.add_sub_cancel] at hz
  refine ⟨?_,fun k => ?_,fun hc => ?_⟩
  · refine Bool.eq_false_iff.mpr fun hused => ?_
    have hbit := (isUsed_iff.mp hused).2.2
    rw [Nat.add_sub_cancel,hz] at hbit
    cases hbit
  · by_cases hk : k = i + 1
    · rw [if_pos hk,hk]
      exact hu
    · rw [if_neg hk]
      unfold SwapState.isUsed
      dsimp only
      split
      · rfl
      · rw [putBit_bitAt,if_neg (by omega)]
  · dsimp only
    rw [countBits_putBit (by omega) (by rw [hz]; exact nofun),hc]

theorem free_slot_counted :
    (∀ k, (t.freeSlot slot).isUsed k = if k = slot then false else t.isUsed k) ∧
      (t.usedPages = countBits true t.bitmap t.totalPages →
        (t.freeSlot slot).usedPages = countBits true (t.freeSlot slot).bitmap
          (t.freeSlot slot).totalPages) := by
  have hnot : t.isUsed slot = false → ∀ k, t.isUsed k = if k = slot then false else t.isUsed k := by
    intro h k
    split
    · rename_i hk
      rw [hk,h]
    · rfl
  unfold SwapState.freeSlot
  split
  · rename_i hr
    exact ⟨hnot (by rw [SwapState.isUsed,if_pos hr]),id⟩
  rename_i hr
  split
  · rename_i hb
    refine ⟨fun k => ?_,fun hc => ?_⟩
    · unfold SwapState.isUsed
      dsimp only
      by_cases hk : k = slot
      · rw [if_pos hk,if_neg (by omega),putBit_bitAt,if_pos (by omega)]
      · rw [if_neg hk]
        split
        · rfl
        · rw [putBit_bitAt,if_neg (by omega)]
    · have hcount := countBits_clear (n := t.totalPages) (by omega) hb
      dsimp only
      rw [Bool.not_true] at hcount
      omega
  · rename_i hb
    refine ⟨hnot ?_,id⟩
    rw [SwapState.isUsed,if_neg hr]
    simpa using hb

namespace Pages
/-- What a call does to the slots: nothing, one more is taken, or one is freed. -/
theorem Counted.take (h : Counted w) (ha : w.swap.state.allocSlot = some (slot,t))
    (hs : s.state = t) {held : Nat → Bool}
    (hheld : ∀ k, held k = true → k = slot ∨ w.held k = true) : Counted ⟨s,held⟩ := by
  obtain ⟨-,hbits,hcount⟩ := alloc_slot_counted ha
  subst hs
  refine ⟨hcount h.used,fun k hk => ?_⟩
  rw [hbits]
  rcases hheld k hk with rfl | hk
  · exact if_pos rfl
  · rw [h.held k hk]
    split <;> rfl

theorem Counted.drop (h : Counted w) (slot : Nat) {s : Swap}
    (hs : s.state = w.swap.state.freeSlot slot) : Counted ⟨s,update w.held slot false⟩ := by
  obtain ⟨hbits,hcount⟩ := free_slot_counted
  refine ⟨?_,fun k hk => ?_⟩
  · rw [hs]
    exact hcount h.used
  · dsimp only at hk ⊢
    by_cases hks : k = slot
    · rw [hks,update_self] at hk
      cases hk
    · rw [update_of_ne hks] at hk
      rw [hs,hbits,if_neg hks]
      exact h.held k hk

theorem Counted.step (h : Counted w) (c : Call) : Counted (w.step c) := by
  cases c with
  | swapOut written =>
    unfold Pages.step Swap.step swapOutInternal
    dsimp only
    split
    · exact h
    cases ha : w.swap.state.allocSlot with
    | none => exact h
    | some r =>
      cases written with
      | error e => exact h.take ha rfl fun k hk => .inr hk
      | ok u =>
        refine h.take ha rfl fun k hk => ?_
        by_cases hks : k = r.1
        · exact .inl hks
        · exact .inr (update_of_ne hks true w.held ▸ hk)
  | swapIn slot read =>
    unfold Pages.step Swap.step swapInInternal
    dsimp only
    split
    · exact h
    split
    · exact h
    cases read with
    | error e => exact ⟨h.used,h.held⟩
    | ok u => exact h.drop slot.toNat rfl
  | freeSlot slot =>
    unfold Pages.step Swap.step freeSwapSlot
    dsimp only
    split
    · rename_i h0
      subst h0
      refine ⟨h.used,fun k hk => ?_⟩
      by_cases hks : k = 0
      · subst hks
        cases hk
      · exact h.held k (update_of_ne hks false w.held ▸ hk)
    · exact h.drop slot.toNat rfl
  | swapoff =>
    unfold Pages.step Swap.step swapoff
    dsimp only
    split
    · exact h
    split
    · exact h
    · rename_i hzero
      have hnone : ∀ k, w.held k = false := by
        intro k
        refine Bool.eq_false_iff.mpr fun hk => ?_
        obtain ⟨h0,hle,hb⟩ := isUsed_iff.mp (h.held k hk)
        have hcount := countBits_clear (n := w.swap.state.totalPages) (by omega) hb
        have := h.used
        omega
      exact ⟨rfl,fun k hk => absurd (hk.symm.trans (hnone k)) nofun⟩

theorem Counted.run (h : Counted w) (cs : List Call) : Counted (cs.foldl Pages.step w) := by
  induction cs generalizing w with
  | nil => exact h
  | cons c cs ih => exact ih (h.step c)

end Pages

theorem swapOut_fails (hact : s.state.active = true) (ha : s.state.allocSlot = some (slot,t)) :
    s.Fails (.swapOut (.error e)) ∧ (s.step (.swapOut (.error e))).state = t := by
  simp [Fails,Swap.step,swapOutInternal,hact,ha,Except.isOk,Except.toBool,Swap.transfer]

/-- An operation that fails leaves the state alone, but for a swap-out that has its slot. -/
theorem failed_state (hf : s.Fails c) (hno : ¬ s.Unwritten c) : (s.step c).state = s.state := by
  cases c with
  | swapOut written =>
    unfold Fails swapOutInternal at hf
    unfold Swap.step swapOutInternal
    dsimp only at hf ⊢
    cases hact : s.state.active with
    | false => rfl
    | true =>
      rw [hact] at hf
      cases ha : s.state.allocSlot with
      | none => rfl
      | some r =>
        cases written with
        | ok u =>
          rw [ha] at hf
          cases hf
        | error e => exact absurd ⟨e,rfl,hact,by rw [ha]; rfl⟩ hno
  | swapIn slot read =>
    unfold Fails swapInInternal at hf
    unfold Swap.step swapInInternal
    dsimp only at hf ⊢
    split
    · rfl
    split
    · rfl
    · rw [if_neg ‹_›,if_neg ‹_›] at hf
      cases read with
      | error e => rfl
      | ok u => cases hf
  | freeSlot slot => cases hf
  | swapoff =>
    unfold Fails swapoff at hf
    unfold Swap.step swapoff
    dsimp only at hf ⊢
    split
    · rfl
    split
    · rfl
    · rw [if_neg ‹_›,if_neg ‹_›] at hf
      cases hf

theorem failed_keeps_iff (s : Swap) (c : Call) :
    (s.Fails c → ∀ slot, (s.step c).state.isUsed slot = s.state.isUsed slot) ↔ ¬ s.Unwritten c := by
  refine ⟨?_,fun hno hf slot => by rw [failed_state hf hno]⟩
  rintro h ⟨e,rfl,hact,hsome⟩
  obtain ⟨⟨slot,t⟩,ha⟩ := Option.isSome_iff_exists.mp hsome
  obtain ⟨hfails,hstate⟩ := swapOut_fails (e := e) hact ha
  obtain ⟨hfree,hbits,-⟩ := alloc_slot_counted ha
  have hsame := h hfails slot
  rw [hstate,hfree,hbits,if_pos rfl] at hsame
  cases hsame

/-- After any calls, whatever their transfers do, the next slot holds no page and is not used,
the counter is the number of used slots, and the next operation, if it fails, leaves the used
slots alone if and only if it is no swap-out that cannot write to its slot. -/
theorem swap_slots_iff (dev : Nat) (lba sectors : UInt32) (page0 : Except BlkError Bytes)
    (s₀ s : Swap) (m : Nat) (h : swapon dev lba sectors page0 s₀ = (.ok m,s)) (cs : List Call) :
    (∀ slot t, (cs.foldl Pages.step ⟨s,fun _ => false⟩).swap.state.allocSlot = some (slot,t) →
      (cs.foldl Pages.step ⟨s,fun _ => false⟩).held slot = false ∧
      (cs.foldl Pages.step ⟨s,fun _ => false⟩).swap.state.isUsed slot = false) ∧
    (cs.foldl Pages.step ⟨s,fun _ => false⟩).swap.state.usedPages =
      countBits true (cs.foldl Pages.step ⟨s,fun _ => false⟩).swap.state.bitmap
        (cs.foldl Pages.step ⟨s,fun _ => false⟩).swap.state.totalPages ∧
    ∀ c, ((cs.foldl Pages.step ⟨s,fun _ => false⟩).swap.Fails c →
        ∀ slot, ((cs.foldl Pages.step ⟨s,fun _ => false⟩).swap.step c).state.isUsed slot =
          (cs.foldl Pages.step ⟨s,fun _ => false⟩).swap.state.isUsed slot) ↔
      ¬ (cs.foldl Pages.step ⟨s,fun _ => false⟩).swap.Unwritten c := by
  have hstart : Counted ⟨s,fun _ => false⟩ := by
    obtain ⟨p,-,-,hst⟩ := swapon_ok h
    refine ⟨?_,nofun⟩
    have hnone : countBits true (fun _ => 0#64) (headerSlots p) = 0 :=
      Nat.count_of_forall_not fun i _ => by simp [bitAt]
    rw [hst,hnone]
  have hrun := hstart.run cs
  refine ⟨fun slot t ha => ?_,hrun.used,failed_keeps_iff _⟩
  have hfree := (alloc_slot_counted ha).1
  refine ⟨Bool.eq_false_iff.mpr fun hk => ?_,hfree⟩
  rw [hrun.held slot hk] at hfree
  cases hfree

/-- An area of ten slots after one page was written to it. -/
theorem swap_slots_one : ([Call.swapOut (.ok ())].foldl Pages.step
    ⟨(swapon 0 2048 96 (.ok smallHeader) .new).2,fun _ => false⟩).swap.state.usedPages =
      countBits true ([Call.swapOut (.ok ())].foldl Pages.step
        ⟨(swapon 0 2048 96 (.ok smallHeader) .new).2,fun _ => false⟩).swap.state.bitmap
      ([Call.swapOut (.ok ())].foldl Pages.step
        ⟨(swapon 0 2048 96 (.ok smallHeader) .new).2,fun _ => false⟩).swap.state.totalPages := by
  have hon : swapon 0 2048 96 (.ok smallHeader) .new =
      (.ok 12,(swapon 0 2048 96 (.ok smallHeader) .new).2) := Prod.ext (by decide +kernel) rfl
  exact (swap_slots_iff 0 2048 96 (.ok smallHeader) .new _ 12 hon [.swapOut (.ok ())]).2.1

/-- The write of the first page fails, and its slot stays used. -/
theorem failed_write_keeps_slot :
    (swapon 0 2048 96 (.ok smallHeader) .new).2.Fails (.swapOut (.error .deviceFault)) ∧
    (swapon 0 2048 96 (.ok smallHeader) .new).2.state.isUsed 1 = false ∧
    ((swapon 0 2048 96 (.ok smallHeader) .new).2.step
      (.swapOut (.error .deviceFault))).state.isUsed 1 = true :=
  ⟨by unfold Fails; decide +kernel,by decide +kernel,by decide +kernel⟩

end Swap

end Miku.Mm
