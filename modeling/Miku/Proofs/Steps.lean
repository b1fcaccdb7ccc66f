import Miku.Proofs.Fork
import Miku.Proofs.VmaSpans

namespace Miku.Mm
open Lib Lib.Ledger Kernel Option

variable {k : Kernel} {cr3 : Nat}

/-- No page of the range is shared. -/
def RangeUnshared (s : Memory) (cr3 base pages : Nat) : Prop :=
  ∀ i < pages, Unshared s cr3 (base + i * pageSize)

instance (s : Memory) (cr3 base pages : Nat) : Decidable (RangeUnshared s cr3 base pages) :=
  inferInstanceAs (Decidable (∀ i < pages, _))

/-- A reclaim that this fault may start picks a victim still where the reverse map says. -/
def FaultOk (s : Memory) (cr3 addr : Nat) : Prop :=
  ((s.readPteRaw cr3 (frameBase addr)).map isSwapPte).getD false = true →
    s.pool.pop = none → VictimCurrent s

/-- The steps that keep every mapped frame allocated: `fork` within the range of
the share counts, reclaim with a current victim, and no unmapping of a shared
page. -/
def FramesOk (k : Kernel) : Op → Prop
  | .fork cr3 => ForkFits k.mm cr3
  | .fault cr3 addr _ _ => FaultOk k.mm cr3 addr
  | .evict => VictimCurrent k.mm
  | .mmap cr3 addr length _ flags => ∀ size, checkedAlignUp length = some size →
      ∀ base, (if protHas flags Kernel.mapFixed then some addr else
        (k.vmaOf cr3).findFree size) = some base →
        RangeUnshared k.mm cr3 base (size / pageSize)
  | .mmapFile cr3 addr length _ flags _ => ∀ size, checkedAlignUp length = some size →
      protHas flags Kernel.mapFixed = true → RangeUnshared k.mm cr3 addr (size / pageSize)
  | .munmap cr3 addr length => ∀ size, checkedAlignUp length = some size →
      RangeUnshared k.mm cr3 addr (size / pageSize)
  | .brk cr3 newBrk => ∀ new, checkedAlignUp newBrk = some new →
      RangeUnshared k.mm cr3 new (((k.vmaOf cr3).brk - new) / pageSize)
  | _ => True

/-- The one further step that can break isolation: `mprotect` may not hand out
write access to a shared page. -/
def SharingOk (k : Kernel) : Op → Prop
  | .mprotect cr3 addr length prot => protHas prot protWrite = true →
      ∀ size, checkedAlignUp length = some size → RangeUnshared k.mm cr3 addr (size / pageSize)
  | _ => True

section

variable (h : Kept iso k.mm)
include h

theorem anon_fault_kept : Kept iso (k.handleAnonFault cr3 page v).2.mm := by
  unfold handleAnonFault
  split
  · exact h
  split
  · exact h
  rename_i phys mm ha
  rcases hm : (mm.fillFrame phys zeroPage).mapPage cr3 page phys (protToFlags v.prot) with ⟨ok,mm'⟩
  obtain ⟨-,hk⟩ := h.fresh_page ha (prot_flags_plain v.prot) hm
  cases ok with
  | true => exact hk.1
  | false => exact hk

theorem file_fault_kept : Kept iso (k.handleFileFault cr3 addr).2.mm := by
  unfold handleFileFault
  dsimp only
  split
  · exact h
  rename_i v hv
  split
  · exact h
  split
  · exact h
  rename_i phys mm ha
  split
  · obtain ⟨hb,hr⟩ := Books.alloc h ha
    rw [← holds_of_spaces (alloc_grown ha).spaces] at hb
    have hb' : Books iso (mm.fillFrame phys zeroPage)
        ((mm.fillFrame phys zeroPage).holds + hand phys) := ⟨hb.owned,hb.lone⟩
    exact hb'.hand_free hr
  · rename_i data hd
    rcases hm : (mm.fillFrame phys data).mapPage cr3 (frameBase addr) phys (protToFlags v.prot)
      with ⟨ok,mm'⟩
    obtain ⟨-,hk⟩ := h.fresh_page ha (prot_flags_plain v.prot) hm
    cases ok with
    | true => exact hk.1
    | false => exact hk

theorem vma_fault_kept : Kept iso (k.handleVmaFault cr3 addr fromUser).2.mm := by
  unfold handleVmaFault
  dsimp only
  repeat' split
  all_goals first
    | exact h
    | exact file_fault_kept h
    | exact anon_fault_kept h

theorem fault_on_entry_kept (hr : k.mm.readPteRaw cr3 page = some pte)
    (hv : isSwapPte pte = true → k.mm.pool.pop = none → VictimCurrent k.mm) :
    Kept iso (k.faultOnEntry cr3 page pte isWrite).2.mm := by
  unfold faultOnEntry
  by_cases hs : isSwapPte pte = true
  · -- a swapped page is not present, so the copy-on-write branch is closed
    have hk : Kept iso (k.mm.trySwapin cr3 page (slotFromPte pte) pte).2 := h.try_swapin (hv hs)
    have hp := swap_pte_absent hs
    simp only [hs,hp,↓reduceIte,Bool.and_false,Bool.false_and]
    split
    · exact hk
    · exact hk
  · simp only [hs,↓reduceIte,Bool.false_eq_true]
    split
    · rename_i hw
      simp only [Bool.and_eq_true] at hw
      exact h.copy_or_unshare hr hw.1.2
    · exact h

theorem page_fault_kept (hv : FaultOk k.mm cr3 addr) :
    Kept iso (k.pageFaultHandler cr3 addr isWrite fromUser).2.mm := by
  unfold pageFaultHandler
  dsimp only
  split
  · rename_i pte hr
    have hr : k.mm.readPteRaw cr3 (frameBase addr) = some pte := by
      split at hr
      · exact hr
      · cases hr
    have hk : Kept iso (k.faultOnEntry cr3 (frameBase addr) pte isWrite).2.mm :=
      fault_on_entry_kept h hr (fun hs => hv (by rw [hr]; exact hs))
    split
    · exact hk
    split
    · exact vma_fault_kept hk
    · exact hk
  · split
    · exact h
    split
    · exact vma_fault_kept h
    · exact h

theorem mmap_kept (hok : FramesOk k (.mmap cr3 addr length prot flags)) :
    Kept iso (k.sysMmap cr3 addr length prot flags).2.mm := by
  unfold sysMmap
  split
  · exact h
  split
  · exact h
  rename_i size hsize
  dsimp only
  split
  · exact h
  split
  · exact h
  rename_i base k1 hplaced
  -- placing the mapping leaves every page of the range unmapped or unshared
  have hplace : Kept iso k1.mm ∧ RangeUnshared k1.mm cr3 base (size / pageSize) := by
    split at hplaced
    · rename_i hfix
      cases hplaced
      have hu := hok size hsize addr (if_pos hfix)
      obtain ⟨hk,hc⟩ := h.unmap_pages hu
      exact ⟨hk,fun i hi => hc.unshared _ _ (hu i hi)⟩
    · rename_i hfix
      obtain ⟨⟨b,m⟩,hf,he⟩ := map_eq_some_iff.mp hplaced
      cases he
      obtain ⟨b',hfree,hins⟩ := bind_eq_some_iff.mp hf
      obtain ⟨e,-,he⟩ := map_eq_some_iff.mp hins
      cases he
      exact ⟨h,hok size hsize _ ((if_neg hfix).trans hfree)⟩
  obtain ⟨hk1,hu1⟩ := hplace
  rcases hm : k1.mm.mapFreshPages cr3 base (size / pageSize) (protToFlags prot) with ⟨ok,mm⟩
  obtain ⟨hk2,hc2⟩ := hk1.map_fresh_pages (prot_flags_plain prot) hm
  cases ok with
  | false =>
    obtain ⟨hk3,-⟩ := hk2.unmap_pages (fun i hi => hc2.unshared _ _ (hu1 i hi))
    dsimp only
    split
    · exact hk3
    · exact hk3
  | true =>
    dsimp only
    split
    · exact hk2
    · exact hk2

theorem mmap_file_kept (hok : FramesOk k (.mmapFile cr3 addr length prot flags b)) :
    Kept iso (k.sysMmapFile cr3 addr length prot flags b).2.mm := by
  unfold sysMmapFile
  split
  · exact h
  split
  · exact h
  rename_i size hsize
  dsimp only
  split
  · rename_i hfix
    split
    · exact h
    · exact (h.unmap_pages (hok size hsize hfix)).1
  split
  · exact h
  · exact h

theorem munmap_kept (hok : FramesOk k (.munmap cr3 addr length)) :
    Kept iso (k.sysMunmap cr3 addr length).2.mm := by
  unfold sysMunmap
  split
  · exact h
  split
  · exact h
  split
  · exact h
  rename_i size hsize
  split
  · exact h
  · exact (h.unmap_pages (hok size hsize)).1

end

theorem prot_flags_writable (prot : Nat) : (protToFlags prot).writable = protHas prot protWrite := by
  have hmask : protHas (prot &&& (protRead ||| protWrite ||| protExec)) protWrite =
      protHas prot protWrite := by
    unfold protHas
    rw [Nat.and_assoc]
    rfl
  unfold protToFlags
  dsimp only
  rw [hmask]
  cases protHas prot protWrite <;> repeat' split
  all_goals first
    | rfl
    | contradiction

theorem mprotect_kept (h : Kept iso k.mm)
    (hok : iso → SharingOk k (.mprotect cr3 addr length prot)) :
    Kept iso (k.sysMprotect cr3 addr length prot).2.mm := by
  unfold sysMprotect
  split
  · exact h
  rename_i halign
  split
  · exact h
  split
  · exact h
  split
  · exact h
  rename_i size hsize
  split
  · exact h
  rename_i e he
  obtain ⟨rfl,-,-⟩ := user_end_for_some he
  refine h.reprotect_pages (by simpa [pageSize] using halign) (prot_flags_plain prot) ?_
  intro hi hw i hlt
  rw [prot_flags_writable] at hw
  rw [Nat.add_sub_cancel_left] at hlt
  exact hok hi hw size hsize i hlt

theorem brk_kept (h : Kept iso k.mm) (hok : FramesOk k (.brk cr3 newBrk)) :
    Kept iso (k.sysBrk cr3 newBrk).2.mm := by
  unfold sysBrk
  dsimp only
  split
  · exact h
  split
  · exact h
  rename_i new hnew
  have hal : checkedAlignUp newBrk = some new := (filter_eq_some_iff.mp hnew).1
  split
  · exact h
  split
  · exact (h.unmap_pages (hok new hal)).1
  rcases hm : k.mm.mapFreshPages cr3 (k.vmaOf cr3).brk ((new - (k.vmaOf cr3).brk) / pageSize)
    (ptePresent ||| pteWritable ||| pteUser ||| pteNoExecute) with ⟨ok,mm⟩
  obtain ⟨hk,-⟩ := h.map_fresh_pages (by unfold PlainFlags; decide) hm
  cases ok with
  | false => exact hk
  | true => exact hk

theorem store_spaces (s : Memory) (cr3 va : Nat) (byte : UInt8) :
    (s.store cr3 va byte).spaces = s.spaces := by
  unfold Memory.store
  repeat' split
  all_goals rfl

theorem store_kept (h : Kept iso s) : Kept iso (s.store cr3 va byte) := by
  unfold Memory.store
  repeat' split
  all_goals exact ⟨h.owned,h.lone⟩

theorem step_kept (k : Kernel) (op : Op) (h : Kept iso k.mm)
    (hok : FramesOk k op ∧ (iso → SharingOk k op)) : Kept iso (k.step op).mm := by
  obtain ⟨hf,hs⟩ := hok
  cases op with
  | newUser =>
    rw [Kernel.step]
    split
    · exact h
    · rename_i hn
      exact h.new_user hn
  | allocFrame =>
    rw [Kernel.step]
    split
    · exact h
    · rename_i phys mm ha
      have hb := (Books.alloc h ha).1.forget
      rw [← holds_of_spaces (alloc_grown ha).spaces] at hb
      exact hb
  | refillPool => exact h.refill_loop _
  | fork cr3 =>
    have hk := h.clone_cow hf
    change Kept iso (k.fork cr3).mm
    unfold Kernel.fork
    split
    · rename_i mm hc
      rw [hc] at hk
      exact hk
    · rename_i child mm hc
      rw [hc] at hk
      unfold vmaClone
      split <;> exact hk
  | fault cr3 addr isWrite fromUser => exact page_fault_kept h hf
  | breakCow cr3 va => exact h.break_cow_page
  | store cr3 va byte => exact store_kept h
  | evict => exact h.evict_one hf
  | age => exact ⟨h.owned,h.lone⟩
  | exit cr3 => exact h.free_address_space
  | registerVma cr3 start end_ prot =>
    change Kept iso (k.kernelRegisterVma cr3 start end_ prot).mm
    unfold kernelRegisterVma
    split <;> exact h
  | mmap cr3 addr length prot flags => exact mmap_kept h hf
  | mmapFile cr3 addr length prot flags b => exact mmap_file_kept h hf
  | munmap cr3 addr length => exact munmap_kept h hf
  | mprotect cr3 addr length prot => exact mprotect_kept h hs
  | brk cr3 newBrk => exact brk_kept h hf

theorem boot_kept (hb : k.Boot) : Kept iso k.mm := by
  have hz : k.mm.holds = 0 := by
    unfold Memory.holds
    rw [hb.spaces]
    rfl
  have hp : pooled k.mm.pool = 0 := by
    funext f
    unfold pooled
    rw [hb.pool]
    rfl
  have ho : ∀ f, owners k.mm.refcounts f = 1 := by
    intro f
    unfold owners
    rw [hb.refcounts]
    rfl
  unfold Kept
  rw [hz]
  refine ⟨⟨⟨?_,?_,?_,?_,?_⟩,hb.hint⟩,fun _ f hf => absurd hf (lt_irrefl 0)⟩
  · intro f
    rw [hp]
    exact Nat.zero_le 1
  · intro f
    rw [ho]
    exact Nat.zero_le 1
  · intro f hf
    rw [hp] at hf
    exact absurd hf (lt_irrefl 0)
  · intro f hf
    rw [ho] at hf
    exact absurd hf (lt_irrefl 1)
  · intro f
    rw [ho]
    exact Nat.zero_lt_one

theorem run_kept (hb : k.Boot)
    (hok : Along Kernel.step (fun k op => FramesOk k op ∧ (iso → SharingOk k op)) k ops) :
    Kept iso (k.run ops).mm := by
  have hstep : ∀ (k : Kernel) (op : Op), (fun k : Kernel => Kept iso k.mm) k →
      FramesOk k op ∧ (iso → SharingOk k op) → (fun k : Kernel => Kept iso k.mm) (k.step op) :=
    step_kept
  exact hok.invariant hstep (boot_kept hb)

end Miku.Mm
