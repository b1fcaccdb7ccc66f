import Miku.Proofs.Steps

namespace Miku.Mm
open Lib Lib.Bits Lib.Bitmap Function Option Memory

variable {s s1 s2 : Memory}

theorem swap_entry_slot (hs : slot < 2 ^ 20) :
    slotFromPte (makeSwapPteWithFlags slot flags) = slot := by
  have hlow : ∀ i, (swapPteMarker ||| (flags &&& 0xFFC#64)).getLsbD (12 + i) = false := by
    intro i
    rw [BitVec.getLsbD_or,BitVec.getLsbD_and,bit_above_low (n := 12) (by decide) (by omega),
      bit_above_low (n := 12) (m := 0xFFC#64) (by decide) (by omega),Bool.and_false,Bool.or_false]
  have he : (makeSwapPteWithFlags slot flags >>> 12) &&& 0xFFFFF#64 = BitVec.ofNat 64 slot := by
    apply BitVec.eq_of_getLsbD_eq
    intro i hi
    unfold makeSwapPteWithFlags
    rw [BitVec.getLsbD_and,BitVec.getLsbD_ushiftRight,BitVec.getLsbD_or,hlow,Bool.false_or,
      BitVec.getLsbD_shiftLeft,show 12 + i - 12 = i by omega]
    by_cases h20 : i < 20
    · have hm : ∀ j : Fin 20, (0xFFFFF#64).getLsbD j.val = true := by decide
      rw [hm ⟨i,h20⟩,decide_eq_true (by omega : 12 + i < 64),decide_eq_false (by omega : ¬ 12 + i < 12)]
      simp
    · have hz : (BitVec.ofNat 64 slot).getLsbD i = false :=
        bit_above_low (n := 20) (by rw [BitVec.toNat_ofNat]; omega) (by omega)
      rw [hz]
      simp
  unfold slotFromPte
  rw [he,BitVec.toNat_ofNat]
  omega

theorem swap_entry_flags :
    flagsFromSwapPte (makeSwapPteWithFlags slot flags) = flags &&& 0xFFC#64 := by
  unfold flagsFromSwapPte makeSwapPteWithFlags
  rw [or_and_of_disjoint _ (shiftLeft_and_low _ (by decide)),BitVec.or_comm,
    or_and_of_disjoint _ (by decide)]
  exact and_and_of_sub _ (by decide)

/-- The scan goes on behind a slot too high, but finds only higher ones. -/
theorem allocScan_eq (w : SwapState) (word n : Nat) :
    w.allocScan word n = (scanWords w.bitmap (word * 64) n).filter (· < w.totalPages) := by
  induction n generalizing word with
  | zero => rfl
  | succ n ih =>
    have hrest := scanWords_first w.bitmap n (show (word + 1) * 64 % 64 = 0 by omega)
    rw [SwapState.allocScan,scanWords,Nat.mul_div_cancel _ (by decide),ih,Nat.add_mul]
    by_cases hw : w.bitmap word ≠ BitVec.allOnes 64
    · have hlt := (trailingOnes_spec hw).1
      rw [if_pos hw,filter_some]
      by_cases hs : word * 64 + trailingOnes (w.bitmap word) < w.totalPages
      · rw [if_pos ⟨hw,hs⟩,if_pos (decide_eq_true hs)]
      · rw [if_neg fun h => hs h.2,if_neg (by simpa using hs)]
        refine filter_eq_none_iff.mpr fun r hr => ?_
        rw [Nat.add_mul,hr] at hrest
        have := hrest.1
        simp
        omega
    · rw [if_neg hw,if_neg fun h => hw h.1]

variable {w : SwapState}

theorem alloc_slot_spec (h : w.allocSlot = some (slot,w')) :
    slot ≠ 0 ∧ slot ≤ swapMaxPages ∧ bitAt w.bitmap (slot - 1) = false ∧
      w'.isUsed slot = true ∧ w'.partitionLba = w.partitionLba ∧
      ∀ t, w.isUsed t = true → w'.isUsed t = true := by
  have hscan : ∀ i, w.allocScan 0 (swapMaxPages / 64) = some i →
      i < swapMaxPages / 64 * 64 ∧ i < w.totalPages ∧ bitAt w.bitmap i = false := by
    intro i hi
    have hfirst := scanWords_first w.bitmap (swapMaxPages / 64) (show 0 * 64 % 64 = 0 from rfl)
    rw [allocScan_eq] at hi
    obtain ⟨hs,hlt⟩ := filter_eq_some_iff.mp hi
    rw [hs] at hfirst
    exact ⟨by have := hfirst.2.1; omega,by simpa using hlt,runAt_one.mp hfirst.2.2.1⟩
  obtain ⟨i,hi,he⟩ := map_eq_some_iff.mp h
  simp only [Prod.mk.injEq] at he
  obtain ⟨rfl,rfl⟩ := he
  obtain ⟨h1,h2,h3⟩ := hscan _ hi
  have hmax : i < swapMaxPages := by
    have : swapMaxPages / 64 * 64 = swapMaxPages := by decide
    omega
  refine ⟨by omega,by omega,h3,?_,rfl,?_⟩
  · unfold SwapState.isUsed
    dsimp only
    rw [if_neg (by omega),putBit_bitAt,if_pos (by omega)]
  · intro t ht
    unfold SwapState.isUsed at ht ⊢
    dsimp only
    split at ht
    · cases ht
    · rename_i hr
      rw [if_neg hr,putBit_bitAt]
      split
      · rfl
      · exact ht

theorem alloc_slot_fewer (h : w.allocSlot = some (slot,w'))
    (hroom : w.freePages ≠ 0) : w'.freePages + 1 = w.freePages := by
  obtain ⟨i,-,he⟩ := map_eq_some_iff.mp h
  obtain ⟨-,rfl⟩ := Prod.mk.inj he
  unfold SwapState.freePages at hroom ⊢
  dsimp only
  omega

theorem lba_injective (ha : a ≤ swapMaxPages) (hb : b ≤ swapMaxPages)
    (h : w.lbaForSlot a = w.lbaForSlot b) : a = b := by
  unfold SwapState.lbaForSlot at h
  unfold swapMaxPages at ha hb
  omega

/-- What writing out one victim leaves behind. -/
structure Evicted (s s1 : Memory) (v : SwapMap.Victim) (slot : Nat) : Prop where
  mem : s1.mem = s.mem
  pool : s1.pool = s.pool
  fewer : s1.swap.freePages + 1 = s.swap.freePages
  hint : s.pmm.freeHint ≤ frameCap → s1.pmm.freeHint ≤ frameCap
  nonzero : slot ≠ 0
  inRange : slot ≤ swapMaxPages
  taken : s1.swap.isUsed slot = true
  lba : s1.swap.lbaForSlot = s.swap.lbaForSlot
  disk : s1.disk = update s.disk (s.swap.lbaForSlot slot) (s.mem v.phys)
  others : ∀ t, s.swap.isUsed t = true → s1.swap.isUsed t = true ∧ t ≠ slot
  walks : ∀ cr w, (s1.readPteRaw cr w).isSome = (s.readPteRaw cr w).isSome
  entry : ∀ pte, s.readPteRaw v.cr3 v.virt = some pte →
    s1.readPteRaw v.cr3 v.virt = some (makeSwapPteWithFlags slot v.pteFlags)

theorem swap_out_spec (h : s.swapOutInternal phys = (.ok slot,s')) :
    ∃ w, s.swap.allocSlot = some (slot,w) ∧ s'.swap = w ∧ s'.mem = s.mem ∧
      s'.disk = update s.disk (w.lbaForSlot slot) (s.mem phys) := by
  unfold Memory.swapOutInternal at h
  split at h
  · cases h
  split at h
  · cases h
  rename_i slot' w ha
  have hio : (nextIo { s with swap := w }).2.swap = w ∧
      (nextIo { s with swap := w }).2.mem = s.mem ∧
      (nextIo { s with swap := w }).2.disk = s.disk := by
    unfold nextIo
    split <;> exact ⟨rfl,rfl,rfl⟩
  dsimp only at h
  split at h
  · cases h
    refine ⟨w,ha,hio.1,hio.2.1,?_⟩
    dsimp only
    rw [hio.1,hio.2.1,hio.2.2]
  · cases h

theorem evict_spec (h : s.evictOne = (some f,s1)) :
    ∃ v m slot, s.swapMap.pickVictimAndPin = some (v,m) ∧ f = v.phys ∧ Evicted s s1 v slot := by
  unfold evictOne at h
  split at h
  · cases h
  split at h
  · cases h
  rename_i hroom
  split at h
  · cases h
  rename_i v m hpick
  split at h
  · cases h
  rename_i slot t hout
  obtain ⟨w,hslot,hsw,hmem,hdisk⟩ := swap_out_spec hout
  obtain ⟨hpmm,-,hpool,hsp⟩ := swap_out_same hout
  obtain ⟨hnz,hmax,hfree,hused,hpart,hkeep⟩ := alloc_slot_spec hslot
  have hlba : w.lbaForSlot = s.swap.lbaForSlot := by
    funext a
    unfold SwapState.lbaForSlot
    rw [hpart]
  -- the store to the page table changes none of the other fields
  have hwr : ∀ x, (t.writePteRaw v.cr3 v.virt x).mem = t.mem ∧
      (t.writePteRaw v.cr3 v.virt x).disk = t.disk ∧
      (t.writePteRaw v.cr3 v.virt x).swap = t.swap := by
    intro x
    unfold Memory.writePteRaw
    split <;> exact ⟨rfl,rfl,rfl⟩
  have hread : ∀ cr w, t.readPteRaw cr w = s.readPteRaw cr w := read_of_spaces hsp
  cases h
  obtain ⟨h1,h2,h3⟩ := hwr (makeSwapPteWithFlags slot v.pteFlags)
  refine ⟨v,m,slot,hpick,rfl,?_⟩
  refine ⟨h1.trans hmem,(write_pool _ _ _ _).trans hpool,?_,?_,hnz,hmax,?_,?_,?_,?_,?_,?_⟩
  · change (t.writePteRaw v.cr3 v.virt _).swap.freePages + 1 = _
    rw [h3,hsw]
    exact alloc_slot_fewer hslot hroom
  · intro hh
    refine FrameAllocator.free_frame_hint _ _ ?_
    change (t.writePteRaw v.cr3 v.virt _).pmm.freeHint ≤ _
    rw [write_pmm,hpmm]
    exact hh
  · change (t.writePteRaw v.cr3 v.virt _).swap.isUsed slot = true
    rw [h3,hsw]
    exact hused
  · change (t.writePteRaw v.cr3 v.virt _).swap.lbaForSlot = _
    rw [h3,hsw,hlba]
  · refine h2.trans (hdisk.trans ?_)
    rw [hlba]
  · intro a ha
    change (t.writePteRaw v.cr3 v.virt _).swap.isUsed a = true ∧ _
    rw [h3,hsw]
    refine ⟨hkeep a ha,?_⟩
    rintro rfl
    unfold SwapState.isUsed at ha
    split at ha
    · cases ha
    · rw [hfree] at ha
      cases ha
  · intro cr w
    change ((t.writePteRaw v.cr3 v.virt _).readPteRaw cr w).isSome = _
    rw [read_write_isSome,hread]
  · intro pte hr
    change (t.writePteRaw v.cr3 v.virt _).readPteRaw v.cr3 v.virt = _
    rw [read_write ((hread _ _).trans hr),if_pos ⟨rfl,.refl _⟩]

/-- The frames set aside for swap-in are frames. -/
structure PoolValid (s : Memory) : Prop where
  hint : s.pmm.freeHint ≤ frameCap
  frames : ∀ f ∈ s.pool.frames, f % 4096 = 0 ∧ f / 4096 < frameCap

theorem Kept.pool_valid (h : Kept iso s) : PoolValid s := by
  refine ⟨h.owned.hint,fun f hf => ?_⟩
  have hpos : 0 < pooled s.pool f := List.count_pos_iff.mpr hf
  have hk := h.owned.sound.kept f (lt_of_lt_of_le hpos
    (le_trans (Nat.le_add_left _ _) (Nat.le_add_right _ _)))
  exact ⟨hk.1,hk.2.1⟩

/-- Finding a frame may swap out yet another page, which leaves the slots
already in use alone. -/
theorem swapin_frame_spec (hv : PoolValid s) (h : s.frameForSwapin = (some f,s')) :
    (∃ n, n < 2 ^ 40 ∧ f = n * 4096) ∧ s'.swap.lbaForSlot = s.swap.lbaForSlot ∧
    (∀ t ≤ swapMaxPages, s.swap.isUsed t = true →
      s'.disk (s.swap.lbaForSlot t) = s.disk (s.swap.lbaForSlot t)) ∧
    ∀ cr w, (s'.readPteRaw cr w).isSome = (s.readPteRaw cr w).isSome := by
  unfold frameForSwapin at h
  cases hpop : s.pool.pop with
  | some r =>
    obtain ⟨g,pool⟩ := r
    rw [hpop] at h
    cases h
    have hm : f ∈ s.pool.frames := by
      unfold EmergencyPool.pop at hpop
      split at hpop
      · cases hpop
      · rename_i hfs
        cases hpop
        rw [hfs]
        exact List.mem_cons_self
    obtain ⟨ha,hb⟩ := hv.frames f hm
    exact ⟨⟨f / 4096,lt_of_lt_of_le hb (by decide),by omega⟩,rfl,fun _ _ _ => rfl,
      fun _ _ => rfl⟩
  | none =>
    rw [hpop] at h
    dsimp only at h
    split at h
    · cases h
    rename_i g s1 hev
    obtain ⟨v,m,slot,-,-,he⟩ := evict_spec hev
    split at h
    · cases h
    rename_i phys s2 ha
    cases h
    obtain ⟨pmm,hp,rfl⟩ := alloc_frame_eq ha
    obtain ⟨n,rfl,hn,-,-,-⟩ := FrameAllocator.alloc_frame_spec hp (he.hint hv.hint)
    refine ⟨⟨n,lt_of_lt_of_le hn (by decide),rfl⟩,he.lba,fun t ht hu => ?_,he.walks⟩
    change s1.disk _ = _
    rw [he.disk,update_of_ne]
    exact fun hl => (he.others t hu).2 (lba_injective ht he.inRange hl)

variable {raw : Pte}

/-- A page that comes back sits in the frame found for it, with the flags of its
swap entry. -/
theorem try_swapin_spec (hv : PoolValid s)
    (hs : slot ≤ swapMaxPages) (hw : (s.readPteRaw cr3 page).isSome = true)
    (h : s.trySwapin cr3 page slot raw = (true,s')) :
    ∃ n, n < 2 ^ 40 ∧
      s'.readPteRaw cr3 page = some (Pte.setAddr (n * 4096) (swapinFlags raw ||| ptePresent)) ∧
      (s.swap.isUsed slot = true → s'.mem (n * 4096) = s.disk (s.swap.lbaForSlot slot)) := by
  unfold trySwapin at h
  split at h
  · cases h
  rename_i f t hf
  obtain ⟨⟨n,hn,rfl⟩,hlba,hdisk,hwalk⟩ := swapin_frame_spec hv hf
  split at h
  · cases h
  rename_i u hin
  cases h
  have hmem : u.mem (n * 4096) = t.disk (t.swap.lbaForSlot slot) ∧ u.spaces = t.spaces := by
    refine ⟨?_,(swap_in_same hin).2.2.2⟩
    unfold Memory.swapInInternal at hin
    split at hin
    · cases hin
    split at hin
    · cases hin
    dsimp only at hin
    split at hin
    · cases hin
      have hio : t.nextIo.2.disk = t.disk ∧ t.nextIo.2.swap = t.swap := by
        unfold nextIo
        split <;> exact ⟨rfl,rfl⟩
      change update t.nextIo.2.mem (n * 4096) _ (n * 4096) = _
      rw [update_self,hio.1,hio.2]
    · cases hin
  have hwu : (u.readPteRaw cr3 page).isSome = true := by
    rw [read_of_spaces hmem.2,hwalk]
    exact hw
  obtain ⟨old,hold⟩ := isSome_iff_exists.mp hwu
  rw [map_page_existing hold]
  refine ⟨n,hn,?_,fun hu => ?_⟩
  · change (u.writePteRaw cr3 page _).readPteRaw cr3 page = _
    rw [read_write hold,if_pos ⟨rfl,.refl page⟩]
  · change (u.writePteRaw cr3 page _).mem (n * 4096) = _
    have hwr : (u.writePteRaw cr3 page
        (Pte.setAddr (n * 4096) (swapinFlags raw ||| ptePresent))).mem = u.mem := by
      unfold Memory.writePteRaw
      split <;> rfl
    rw [hwr,hmem.1,hlba]
    exact hdisk slot hs hu

/-- Same rights to write, to execute and to access from user mode. -/
def SameAccess (p q : Pte) : Prop :=
  p.writable = q.writable ∧ p.noExecute = q.noExecute ∧ p.user = q.user

/-- What the flags kept in the reverse map can bring back. Bits 0, 1 and 63 are
not among them, and if nothing was kept the page comes back read-write. -/
def Restorable (saved pte : Pte) : Prop :=
  pte.noExecute = false ∧
    if saved &&& 0xFFC#64 ≠ 0#64 then pte.writable = false ∧ saved.user = pte.user
    else pte.writable = true ∧ pte.user = true

theorem swapin_access (hn : n < 2 ^ 40) :
    SameAccess (Pte.setAddr (n * 4096)
      (swapinFlags (makeSwapPteWithFlags slot saved) ||| ptePresent)) pte ↔
      Restorable saved pte := by
  unfold SameAccess Restorable Pte.writable Pte.noExecute Pte.user
  rw [Pte.setAddr_has hn _ (by decide),Pte.setAddr_has hn _ (by decide),
    Pte.setAddr_has hn _ (by decide)]
  unfold swapinFlags
  rw [swap_entry_flags]
  dsimp only
  by_cases hz : saved &&& 0xFFC#64 = 0#64
  · rw [hz,if_neg (by decide),if_neg (by decide)]
    have h1 : Pte.has (ptePresent ||| pteWritable ||| pteUser ||| ptePresent) pteWritable = true := by
      decide
    have h2 : Pte.has (ptePresent ||| pteWritable ||| pteUser ||| ptePresent) pteNoExecute =
        false := by decide
    have h3 : Pte.has (ptePresent ||| pteWritable ||| pteUser ||| ptePresent) pteUser = true := by
      decide
    rw [h1,h2,h3]
    constructor
    · exact fun h => ⟨h.2.1.symm,h.1.symm,h.2.2.symm⟩
    · exact fun h => ⟨h.2.1.symm,h.1.symm,h.2.2.symm⟩
  · rw [if_pos (by simpa using hz),if_pos hz]
    have hbit : ∀ m : Pte, ptePresent &&& m = 0#64 →
        Pte.has (saved &&& 0xFFC#64 ||| ptePresent ||| ptePresent) m =
          Pte.has (saved &&& 0xFFC#64) m := by
      intro m hm
      unfold Pte.has
      rw [or_and_of_disjoint _ hm,or_and_of_disjoint _ hm]
    rw [hbit _ (by decide),hbit _ (by decide),hbit _ (by decide)]
    have h1 : Pte.has (saved &&& 0xFFC#64) pteWritable = false := by
      unfold Pte.has
      rw [and_and_of_disjoint _ (by decide)]
      rfl
    have h2 : Pte.has (saved &&& 0xFFC#64) pteNoExecute = false := by
      unfold Pte.has
      rw [and_and_of_disjoint _ (by decide)]
      rfl
    have h3 : Pte.has (saved &&& 0xFFC#64) pteUser = Pte.has saved pteUser := by
      unfold Pte.has
      rw [and_and_of_sub _ (by decide)]
    rw [h1,h2,h3]
    constructor
    · exact fun h => ⟨h.2.1.symm,h.1.symm,h.2.2⟩
    · exact fun h => ⟨h.2.1.symm,h.1.symm,h.2.2⟩

/-- A page that reclaim swaps out and a fault brings back has its old contents;
it has its old access rights exactly when the flags kept in the reverse map can
express them. -/
theorem swap_round_trip (s s1 s2 : Memory) (v : SwapMap.Victim) (m : SwapMap) (pte raw : Pte)
    (hpool : PoolValid s) (hpick : s.swapMap.pickVictimAndPin = some (v,m))
    (hr : s.readPteRaw v.cr3 v.virt = some pte) (haddr : pte.addr = v.phys)
    (hev : s.evictOne = (some v.phys,s1)) (hraw : s1.readPteRaw v.cr3 v.virt = some raw)
    (hin : s1.trySwapin v.cr3 v.virt (slotFromPte raw) raw = (true,s2)) :
    ∃ new, s2.readPteRaw v.cr3 v.virt = some new ∧ new.present = true ∧
      s2.mem new.addr = s.mem pte.addr ∧
      (SameAccess new pte ↔ Restorable v.pteFlags pte) := by
  obtain ⟨v',m',slot,hpick',-,he⟩ := evict_spec hev
  rw [hpick] at hpick'
  cases hpick'
  have hlt : slot < 2 ^ 20 := lt_of_le_of_lt he.inRange (by decide)
  have hrawEq : raw = makeSwapPteWithFlags slot v.pteFlags :=
    some.inj (hraw.symm.trans (he.entry pte hr))
  have hslot : slotFromPte raw = slot := by
    rw [hrawEq]
    exact swap_entry_slot hlt
  have hpool1 : PoolValid s1 := ⟨he.hint hpool.hint,by rw [he.pool]; exact hpool.frames⟩
  rw [hslot] at hin
  obtain ⟨n,hn,hnew,hmem⟩ := try_swapin_spec hpool1 he.inRange (by rw [hraw]; rfl) hin
  refine ⟨_,hnew,?_,?_,?_⟩
  · unfold Pte.present
    rw [Pte.setAddr_has hn _ (by decide)]
    unfold Pte.has
    rw [or_and_of_covered _ (by decide)]
    decide
  · have hplain : (swapinFlags raw ||| ptePresent) &&& pteAddrMask = 0#64 := by
      rw [or_and_of_disjoint _ (by decide)]
      exact swapin_flags_plain raw
    rw [Pte.setAddr_addr hn hplain,hmem he.taken,he.lba,he.disk,update_self,haddr]
  · rw [hrawEq]
    exact swapin_access hn

/-- A process with one page of the given protection, faulted in by a read, on a
machine whose emergency pool is full. -/
def pageOf (prot : Nat) : Memory :=
  (swapKernel.run [.refillPool,.newUser,.registerVma 0x440000 0x600000 0x601000 prot,
    .fault 0x440000 0x600000 false true]).mm

/-- The page swapped out and, by its swap entry `raw`, brought back. -/
def roundTrip (s : Memory) (raw : Pte) : Memory :=
  (s.evictOne.2.trySwapin 0x440000 0x600000 (slotFromPte raw) raw).2

theorem code_page_valid : PoolValid (pageOf 5) := by
  have hk : Kept False (pageOf 5) :=
    run_kept ⟨rfl,rfl,rfl,by decide⟩ ⟨⟨trivial,False.elim⟩,⟨trivial,False.elim⟩,
      ⟨trivial,False.elim⟩,⟨fun h => absurd h (by decide +kernel),False.elim⟩,trivial⟩
  exact hk.pool_valid

theorem round_trip_pair
    (h : (s.evictOne.2.trySwapin 0x440000 0x600000 (slotFromPte raw) raw).1 = true) :
    s.evictOne.2.trySwapin 0x440000 0x600000 (slotFromPte raw) raw = (true,roundTrip s raw) :=
  Prod.ext h rfl

theorem evict_pair (h : s.evictOne.1 = some f) : s.evictOne = (some f,s.evictOne.2) :=
  Prod.ext h rfl

/-- A page of code keeps its contents and its rights. -/
theorem swap_round_trip_code :
    ∃ new, (roundTrip (pageOf 5) 0x1006#64).readPteRaw 0x440000 0x600000 = some new ∧
      new.present = true ∧
      (roundTrip (pageOf 5) 0x1006#64).mem new.addr = (pageOf 5).mem (Pte.addr 0x441005#64) ∧
      SameAccess new 0x441005#64 := by
  obtain ⟨hpick,hr,hev,hraw,hin⟩ : (pageOf 5).swapMap.pickVictimAndPin.map (fun r => r.1) =
        some ⟨0x441000,0x440000,0x600000,5#64⟩ ∧
      (pageOf 5).readPteRaw 0x440000 0x600000 = some 0x441005#64 ∧
      (pageOf 5).evictOne.1 = some 0x441000 ∧
      (pageOf 5).evictOne.2.readPteRaw 0x440000 0x600000 = some 0x1006#64 ∧
      ((pageOf 5).evictOne.2.trySwapin 0x440000 0x600000 (slotFromPte 0x1006#64)
        0x1006#64).1 = true := by
    decide +kernel
  obtain ⟨⟨v,m⟩,hp,hv⟩ := map_eq_some_iff.mp hpick
  have hv : v = ⟨0x441000,0x440000,0x600000,5#64⟩ := hv
  rw [hv] at hp
  obtain ⟨new,h1,h2,h3,h4⟩ := swap_round_trip _ _ _ _ m _ _ code_page_valid hp hr (by decide)
    (evict_pair hev) hraw (round_trip_pair hin)
  exact ⟨new,h1,h2,h3,h4.mpr (by unfold Restorable; decide)⟩

/-- A page of data comes back read-only and executable. -/
theorem swap_loses_access : (pageOf 3).evictOne.2.readPteRaw 0x440000 0x600000 = some 0x1006#64 ∧
    ((pageOf 3).readPteRaw 0x440000 0x600000).map
      (fun p => (p.present,p.writable,p.noExecute)) = some (true,true,true) ∧
    ((roundTrip (pageOf 3) 0x1006#64).readPteRaw 0x440000 0x600000).map
      (fun p => (p.present,p.writable,p.noExecute)) = some (true,false,false) := by
  decide +kernel

/-! The reclaim thread evicts pages to fill the emergency pool, but no eviction adds to the
pool. The loop therefore stops only when nothing more can be evicted. -/

variable {s t : Memory}

theorem evict_none_pool (h : s.evictOne = (none,t)) : t.pool = s.pool := by
  unfold Memory.evictOne at h
  split at h
  · cases h
    rfl
  split at h
  · cases h
    rfl
  split at h
  · cases h
    rfl
  split at h
  · rename_i hout
    cases h
    exact (swap_out_same hout).2.2.1
  · cases h

/-- Each eviction takes a slot, so there are no more rounds than free slots. -/
theorem evict_loop_ends (s : Memory) :
    ∃ n t, (∀ fuel, s.swap.freePages < fuel → s.evictLoop fuel = some (n,t)) ∧ t.pool = s.pool ∧
      (n = 0 ↔ emergencyHighWater ≤ s.pool.frames.length ∨ s.evictOne.1 = none) := by
  induction hk : s.swap.freePages using Nat.strong_induction_on generalizing s with
  | _ k ih =>
    by_cases hfull : s.pool.frames.length < emergencyHighWater
    · cases hev : s.evictOne with
      | mk victim t =>
        cases victim with
        | none =>
          refine ⟨0,t,fun fuel hf => ?_,evict_none_pool hev,by simp⟩
          obtain ⟨fuel,rfl⟩ := Nat.exists_eq_add_one.mpr (Nat.zero_lt_of_lt hf)
          simp [Memory.evictLoop,hfull,hev]
        | some f =>
          obtain ⟨v,m,slot,-,-,he⟩ := evict_spec hev
          have hfewer := he.fewer
          obtain ⟨n,u,hloop,hpool,-⟩ := ih _ (by omega) t rfl
          refine ⟨n + 1,u,fun fuel hf => ?_,hpool.trans he.pool,by simp; omega⟩
          obtain ⟨fuel,rfl⟩ := Nat.exists_eq_add_one.mpr (Nat.zero_lt_of_lt hf)
          simp [Memory.evictLoop,hfull,hev,hloop fuel (by omega)]
    · refine ⟨0,s,fun fuel hf => ?_,rfl,by simp; omega⟩
      obtain ⟨fuel,rfl⟩ := Nat.exists_eq_add_one.mpr (Nat.zero_lt_of_lt hf)
      simp [Memory.evictLoop,hfull]

/-- The refill always ends and never adds a frame, so it evicts no more than it adds only
where it evicts nothing. -/
theorem refill_evicts_within_added_iff (s : Memory) : ∃ n t, (∀ fuel, s.swap.freePages < fuel →
        s.evictToRefillEmergencyPool fuel = some (n,t)) ∧
      (s.pool.frames.length + n ≤ t.pool.frames.length ↔
        emergencyLowWater ≤ s.pool.frames.length ∨ s.evictOne.1 = none) := by
  unfold Memory.evictToRefillEmergencyPool
  by_cases hlow : emergencyLowWater ≤ s.pool.frames.length
  · exact ⟨0,s,fun fuel _ => if_pos hlow,by simp [hlow]⟩
  · obtain ⟨n,t,hloop,hpool,hzero⟩ := evict_loop_ends s
    refine ⟨n,t,fun fuel hf => (if_neg hlow).trans (hloop fuel hf),?_⟩
    have hhigh : ¬ emergencyHighWater ≤ s.pool.frames.length := by
      unfold emergencyHighWater
      unfold emergencyLowWater at hlow
      omega
    have hroom : s.pool.frames.length + n ≤ t.pool.frames.length ↔ n = 0 := by
      rw [hpool]
      omega
    simp [hroom,hzero,hlow,hhigh]

/-- One page of a process in memory and an empty pool: the page is evicted, and the pool
stays empty. -/
theorem refill_evicts_for_nothing :
    (((swapKernel.run [.newUser,.registerVma 0x400000 0x600000 0x601000 5,
      .fault 0x400000 0x600000 false true]).mm.evictToRefillEmergencyPool 65).map
        fun r => (r.1,r.2.pool.frames.length)) = some (1,0) := by
  decide +kernel

end Miku.Mm
