import Miku.Lib.Run
import Miku.Mm.Mmap
import Miku.Proofs.VmaSpans

namespace Miku.Mm
open Lib Function Kernel

variable {k k' : Kernel} {cr3 : Nat}

/-- Every address space has a tidy set of VMAs. -/
def AllTidy (k : Kernel) : Prop := ∀ cr3, Tidy (k.vmaOf cr3).vmas

theorem vmaOf_of_vmas (h : k'.vmas = k.vmas) (c : Nat) : k'.vmaOf c = k.vmaOf c := by
  unfold vmaOf
  rw [h]

variable {m : VmaMap}

theorem vmaOf_setVma_self : (k.setVma cr3 m).vmaOf cr3 = m := by
  simp [vmaOf,Kernel.setVma]

theorem vmaOf_setVma_ne (h : c ≠ cr3) : (k.setVma cr3 m).vmaOf c = k.vmaOf c := by
  simp [vmaOf,Kernel.setVma,update_of_ne h]

theorem AllTidy.of_vmas (h : AllTidy k) (hv : k'.vmas = k.vmas) : AllTidy k' :=
  fun c => (vmaOf_of_vmas hv c).symm ▸ h c

theorem AllTidy.set (h : AllTidy k) (hm : Tidy m.vmas) : AllTidy (k.setVma cr3 m) := by
  intro c
  by_cases he : c = cr3
  · subst he
    rw [vmaOf_setVma_self]
    exact hm
  · rw [vmaOf_setVma_ne he]
    exact h c

theorem AllTidy.modify {f : VmaMap → VmaMap} (h : AllTidy k)
    (hf : Tidy (k.vmaOf cr3).vmas → Tidy (f (k.vmaOf cr3)).vmas) : AllTidy (k.modifyVma cr3 f) :=
  h.set (hf (h cr3))

theorem AllTidy.remove_range (h : AllTidy k) (hse : s ≤ e) :
    AllTidy (k.modifyVma cr3 (fun m => m.removeRange s e)) :=
  h.modify (fun ht => (remove_range_spec ht hse).1)

/-- The two calls that add a VMA unchecked: the range they register has to be vacant.
`kernel_register_vma` may replace a VMA with the same start. -/
def VmaOk (k : Kernel) : Op → Prop
  | .registerVma cr3 start end_ _ => start < end_ →
      ClearBut Vma.start Vma.end_ (k.vmaOf cr3).vmas start start end_
  | .brk cr3 newBrk => ∀ new ∈ (checkedAlignUp newBrk).filter (fun v => v < userEnd),
      (k.vmaOf cr3).brk < new → Vacant (k.vmaOf cr3).vmas (k.vmaOf cr3).brk new
  | _ => True

instance (k : Kernel) : DecidablePred (VmaOk k)
  | .registerVma _ start end_ _ =>
    inferInstanceAs (Decidable (start < end_ → ClearBut Vma.start Vma.end_ _ start start end_))
  | .brk _ newBrk =>
    inferInstanceAs (Decidable (∀ new ∈ (checkedAlignUp newBrk).filter (fun v => v < userEnd), _))
  | .newUser | .allocFrame | .refillPool | .fork _ | .fault _ _ _ _ | .breakCow _ _ | .store _ _ _
  | .evict | .age | .exit _ | .mmap _ _ _ _ _ | .mmapFile _ _ _ _ _ _ | .munmap _ _ _
  | .mprotect _ _ _ _ => inferInstanceAs (Decidable True)

variable {v : Vma}

theorem anon_fault_vmas : (k.handleAnonFault cr3 page v).2.vmas = k.vmas := by
  unfold handleAnonFault
  repeat' split
  all_goals rfl

theorem file_fault_vmas : (k.handleFileFault cr3 addr).2.vmas = k.vmas := by
  unfold handleFileFault
  dsimp only
  repeat' split
  all_goals rfl

theorem vma_fault_vmas : (k.handleVmaFault cr3 addr fromUser).2.vmas = k.vmas := by
  unfold handleVmaFault
  dsimp only
  repeat' split
  all_goals first
    | rfl
    | exact file_fault_vmas
    | exact anon_fault_vmas

theorem fault_on_entry_vmas : (k.faultOnEntry cr3 page pte isWrite).2.vmas = k.vmas := by
  unfold faultOnEntry
  repeat' split
  all_goals rfl

theorem page_fault_vmas : (k.pageFaultHandler cr3 addr isWrite fromUser).2.vmas = k.vmas := by
  unfold pageFaultHandler
  dsimp only
  split
  · split
    · exact fault_on_entry_vmas
    split
    · exact vma_fault_vmas.trans fault_on_entry_vmas
    · exact fault_on_entry_vmas
  · split
    · rfl
    split
    · exact vma_fault_vmas
    · rfl

theorem replace_range_tidy (h : Tidy m.vmas) (hp : v.start < v.end_) :
    Tidy ((m.removeRange v.start v.end_).insertMerged v).vmas := by
  obtain ⟨ht,hv,-⟩ := remove_range_spec h hp.le
  exact (insert_merged_spec ht hp hv).1

section

variable (h : AllTidy k)
include h

theorem mmap_tidy : AllTidy (k.sysMmap cr3 addr length prot flags).2 := by
  unfold sysMmap
  split
  · exact h
  split
  · exact h
  rename_i size hsize
  dsimp only
  split
  · exact h
  rename_i hfixed
  split
  · exact h
  rename_i base k1 hplaced
  split at hplaced
  · rename_i hfix
    cases hplaced
    obtain ⟨e,he⟩ : ∃ e, userEndFor addr size = some e := by
      refine Option.ne_none_iff_exists'.mp (fun hn => ?_)
      exact hfixed ⟨hfix,.inr (.inr hn)⟩
    obtain ⟨rfl,hlt,-⟩ := user_end_for_some he
    have h0 : AllTidy { k with mm := k.mm.unmapPages cr3 addr (size / pageSize) } := h.of_vmas rfl
    split
    · dsimp only
      rw [if_pos hfix]
      exact .of_vmas (h0.remove_range hlt.le) rfl
    · dsimp only
      rw [if_pos hfix]
      refine .modify (AllTidy.of_vmas (h0.remove_range hlt.le) rfl) ?_
      intro ht
      have hvac := (remove_range_spec (h cr3) hlt.le).2.1
      refine (insert_merged_spec ht ?_ ?_).1
      · exact hlt
      · simpa [vmaOf,modifyVma,Kernel.setVma] using hvac
  · rename_i hfix
    obtain ⟨⟨b,m⟩,hf,he⟩ := Option.map_eq_some_iff.mp hplaced
    cases he
    have h1 : AllTidy (k.setVma cr3 m) := h.set (find_and_insert_tidy (h cr3) hf)
    split
    · dsimp only
      rw [if_neg hfix]
      exact .remove_range (h1.of_vmas rfl) (Nat.le_add_right b size)
    · dsimp only
      rw [if_neg hfix]
      exact h1.of_vmas rfl

theorem mmap_file_tidy : AllTidy (k.sysMmapFile cr3 addr length prot flags b).2 := by
  unfold sysMmapFile
  split
  · exact h
  split
  · exact h
  rename_i size hsize
  dsimp only
  split
  · split
    · exact h
    rename_i hfixed
    obtain ⟨e,he⟩ : ∃ e, userEndFor addr size = some e := by
      refine Option.ne_none_iff_exists'.mp (fun hn => ?_)
      exact hfixed (.inr (.inr hn))
    obtain ⟨rfl,hlt,-⟩ := user_end_for_some he
    dsimp only
    refine .modify (h.of_vmas ?_) (fun ht => ?_)
    · rfl
    exact replace_range_tidy ht hlt
  split
  · exact h
  · rename_i hf
    exact h.set (find_and_insert_tidy (h cr3) hf)

theorem munmap_tidy : AllTidy (k.sysMunmap cr3 addr length).2 := by
  unfold sysMunmap
  split
  · exact h
  split
  · exact h
  split
  · exact h
  split
  · exact h
  rename_i e he
  obtain ⟨rfl,hlt,-⟩ := user_end_for_some he
  exact (h.of_vmas rfl).remove_range hlt.le

theorem mprotect_tidy : AllTidy (k.sysMprotect cr3 addr length prot).2 := by
  unfold sysMprotect
  split
  · exact h
  split
  · exact h
  split
  · exact h
  split
  · exact h
  split
  · exact h
  rename_i e he
  obtain ⟨rfl,hlt,-⟩ := user_end_for_some he
  dsimp only
  refine .modify (h.of_vmas ?_) (fun ht => ?_)
  · rfl
  exact replace_range_tidy ht hlt

theorem brk_tidy (hok : VmaOk k (.brk cr3 newBrk)) : AllTidy (k.sysBrk cr3 newBrk).2 := by
  unfold sysBrk
  dsimp only
  split
  · exact h
  split
  · exact h
  rename_i new hnew
  split
  · exact h
  split
  · rename_i hle
    dsimp only
    refine .modify (h.of_vmas ?_) (fun ht => ?_)
    · rfl
    exact (remove_range_spec ht hle).1
  · rename_i hgrow
    have hlt : (k.vmaOf cr3).brk < new := not_le.mp hgrow
    have hv := hok new hnew hlt
    split
    · exact h.of_vmas rfl
    · dsimp only
      refine .modify (h.of_vmas ?_) (fun ht => ?_)
      · rfl
      refine (insert_merged_spec ht ?_ ?_).1
      · exact hlt
      · exact hv

theorem register_vma_tidy (hok : VmaOk k (.registerVma cr3 start end_ prot)) :
    AllTidy (k.kernelRegisterVma cr3 start end_ prot) := by
  unfold kernelRegisterVma
  split
  · exact h
  · rename_i hlt
    have hlt : start < end_ := not_le.mp hlt
    refine h.modify ?_
    intro ht
    exact .insert (v := ⟨start,end_,prot,none⟩) ht hlt (hok hlt)

theorem fork_tidy : AllTidy (k.fork cr3) := by
  unfold Kernel.fork
  split
  · exact h.of_vmas rfl
  rename_i child mm hc
  unfold vmaClone
  split
  · exact h.of_vmas rfl
  · rename_i m hm
    have hm' : k.vmaOf cr3 = m := congrArg (fun o => Option.getD o VmaMap.new) hm
    exact .set (h.of_vmas rfl) (hm' ▸ h cr3)

theorem exit_tidy : AllTidy (k.exit cr3) := by
  intro c
  by_cases hc : c = cr3
  · subst hc
    simp only [Kernel.exit,vmaOf,vmaCleanup,withMm,update_self,Option.getD_none]
    exact .empty
  · have := h c
    simpa [Kernel.exit,vmaOf,vmaCleanup,withMm,update_of_ne hc]

end

theorem step_tidy (k : Kernel) (op : Op) (h : AllTidy k) (hok : VmaOk k op) :
    AllTidy (k.step op) := by
  cases op with
  | newUser | allocFrame =>
    simp only [Kernel.step]
    split
    · exact h
    · exact h.of_vmas rfl
  | fork cr3 => exact fork_tidy h
  | fault cr3 addr isWrite fromUser => exact h.of_vmas page_fault_vmas
  | exit cr3 => exact exit_tidy h
  | registerVma cr3 start end_ prot => exact register_vma_tidy h hok
  | mmap cr3 addr length prot flags => exact mmap_tidy h
  | mmapFile cr3 addr length prot flags b => exact mmap_file_tidy h
  | munmap cr3 addr length => exact munmap_tidy h
  | mprotect cr3 addr length prot => exact mprotect_tidy h
  | brk cr3 newBrk => exact brk_tidy h hok
  | refillPool | breakCow | store | evict | age => exact h.of_vmas rfl

/-- In a run in which the unchecked calls register vacant ranges, the VMAs of every address
space stay keyed by their start, nonempty and pairwise disjoint. -/
theorem vmas_stay_tidy (k : Kernel) (ops : List Op) (h : AllTidy k)
    (hok : Along Kernel.step VmaOk k ops) (cr3 : Nat) : Tidy ((k.run ops).vmaOf cr3).vmas :=
  hok.invariant step_tidy h cr3

/-- Every call that touches the VMAs, once. -/
def vmaCalls : List Op :=
  [.newUser,.registerVma 0x400000 0x600000 0x602000 3,.mmap 0x400000 0 0x2000 3 0,
    .mmapFile 0x400000 0 0x3000 1 0 ⟨7,0,0x3000,false⟩,.munmap 0x400000 0x100003000 0x1000,
    .mprotect 0x400000 0x100000000 0x1000 1,.brk 0x400000 0x6000002000]

theorem vmas_stay_tidy_calls : Along Kernel.step VmaOk sampleKernel vmaCalls ∧
    Tidy ((sampleKernel.run vmaCalls).vmaOf 0x400000).vmas := by
  have hok : Along Kernel.step VmaOk sampleKernel vmaCalls := by decide +kernel
  exact ⟨hok,vmas_stay_tidy sampleKernel vmaCalls (fun _ => Spans.empty) hok 0x400000⟩

/-- A fixed mapping in the way of the heap, and then the heap grows over it. -/
def heapClash : List Op :=
  [.newUser,.mmap 0x400000 0x6000001000 0x1000 1 0x10,.brk 0x400000 0x6000003000]

theorem brk_overlaps_mapping : ¬ Tidy ((sampleKernel.run heapClash).vmaOf 0x400000).vmas := by
  intro h
  have hheap : (0x6000000000,⟨0x6000000000,0x6000003000,3,none⟩) ∈
      ((sampleKernel.run heapClash).vmaOf 0x400000).vmas := by decide +kernel
  have hfixed : (0x6000001000,⟨0x6000001000,0x6000002000,1,none⟩) ∈
      ((sampleKernel.run heapClash).vmaOf 0x400000).vmas := by decide +kernel
  rcases h.disjoint _ _ _ _ hheap hfixed (by decide) with hd | hd
  · exact absurd hd (by decide)
  · exact absurd hd (by decide)

variable {k : Kernel} {cr3 addr length prot a : Nat} {old new : OrdMap Vma}

def Covered (vmas : OrdMap Vma) (a : Nat) : Prop := ∃ prot b, Mapped vmas a prot b

/-- From `old` to `new` only protections change, and those only in `[s, e)`. -/
structure ProtectsOnly (old new : OrdMap Vma) (s e : Nat) : Prop where
  covered : ∀ a, Covered new a ↔ Covered old a
  backing : ∀ a p b p' b', Mapped old a p b → Mapped new a p' b' → b' = b
  outside : ∀ a p b p' b', a < s ∨ e ≤ a → Mapped old a p b → Mapped new a p' b' → p' = p

theorem mapped_unique (h : Tidy old)
    (h1 : Mapped old a p b) (h2 : Mapped old a p' b') : p = p' ∧ b = b' := by
  obtain ⟨j,v,hv,hin,rfl,rfl⟩ := h1
  obtain ⟨i,w,hw,hin',rfl,rfl⟩ := h2
  obtain rfl := h.point_unique hv hw hin hin'
  exact ⟨rfl,rfl⟩

theorem ProtectsOnly.refl (h : Tidy old) (s e : Nat) : ProtectsOnly old old s e :=
  ⟨fun _ => Iff.rfl,fun _ _ _ _ _ h1 h2 => (mapped_unique h h2 h1).2,
    fun _ _ _ _ _ _ h1 h2 => (mapped_unique h h2 h1).1⟩

/-- The range of a call rounded up to pages. -/
def rangeEnd (addr length : Nat) : Nat := addr + (length + (pageSize - 1)) / pageSize * pageSize

def MprotectAccepts (addr length prot : Nat) : Prop :=
  addr % pageSize = 0 ∧ length ≠ 0 ∧ Kernel.protRejected prot = false ∧
    length + (pageSize - 1) < u64Size ∧ rangeEnd addr length ≤ userEnd

theorem checked_align_up_eq : checkedAlignUp length =
    if length + (pageSize - 1) < u64Size then
      some ((length + (pageSize - 1)) / pageSize * pageSize) else none := by
  unfold checkedAlignUp checkedAdd
  split <;> rfl

theorem user_end_for_eq (hs : 0 < size) :
    userEndFor start size = if start + size ≤ userEnd then some (start + size) else none := by
  have hu : userEnd < u64Size := by decide
  unfold userEndFor checkedAdd
  split
  · rename_i hle
    simp only [Option.filter_some,Nat.lt_add_right_iff_pos,hs,decide_true,Bool.true_and,
      decide_eq_true_eq]
  · rename_i hlt
    rw [if_neg (by omega)]
    rfl

/-- A rejected call changes no VMA, an accepted one replaces what is in its range
by one anonymous VMA. -/
theorem mprotect_vmas :
    (¬ MprotectAccepts addr length prot ∧ (k.sysMprotect cr3 addr length prot).2.vmas = k.vmas) ∨
      (MprotectAccepts addr length prot ∧ addr < rangeEnd addr length ∧
        (k.sysMprotect cr3 addr length prot).2.vmaOf cr3 =
          ((k.vmaOf cr3).removeRange addr (rangeEnd addr length)).insertMerged
            ⟨addr,rangeEnd addr length,prot,none⟩) := by
  unfold Kernel.sysMprotect
  split
  · rename_i halign
    exact .inl ⟨fun h => halign h.1,rfl⟩
  rename_i halign
  split
  · rename_i hlen
    exact .inl ⟨fun h => h.2.1 hlen,rfl⟩
  rename_i hlen
  split
  · rename_i hprot
    exact .inl ⟨fun h => Bool.noConfusion (h.2.2.1.symm.trans hprot),rfl⟩
  rename_i hprot
  have hpages : 0 < (length + (pageSize - 1)) / pageSize * pageSize :=
    Nat.mul_pos (Nat.div_pos (by unfold pageSize at *; omega) (by decide)) (by decide)
  have huser : userEndFor addr ((length + (pageSize - 1)) / pageSize * pageSize) =
      if rangeEnd addr length ≤ userEnd then some (rangeEnd addr length) else none :=
    user_end_for_eq hpages
  rw [checked_align_up_eq]
  by_cases hwrap : length + (pageSize - 1) < u64Size
  · rw [if_pos hwrap]
    dsimp only
    rw [huser]
    by_cases hend : rangeEnd addr length ≤ userEnd
    · refine .inr ⟨⟨by simpa using halign,hlen,by simpa using hprot,hwrap,hend⟩,
        Nat.lt_add_of_pos_right hpages,?_⟩
      rw [if_pos hend]
      exact vmaOf_setVma_self
    · rw [if_neg hend]
      exact .inl ⟨fun h => hend h.2.2.2.2,rfl⟩
  · rw [if_neg hwrap]
    exact .inl ⟨fun h => hwrap h.2.2.2.1,rfl⟩

theorem mapped_replaced {m : VmaMap} (h : Tidy m.vmas)
    (hlt : s < e) : Mapped ((m.removeRange s e).insertMerged ⟨s,e,prot,none⟩).vmas a p b ↔
      if s ≤ a ∧ a < e then p = prot ∧ b = none else Mapped m.vmas a p b := by
  obtain ⟨ht,hv,hsame⟩ := remove_range_spec h (Nat.le_of_lt hlt)
  rw [(insert_merged_spec (v := ⟨s,e,prot,none⟩) ht hlt hv).2]
  split
  · rename_i hin
    constructor
    · rintro (⟨j,v,hm,hcov,-,-⟩ | ⟨-,hp,hb⟩)
      · have := hv j v hm
        omega
      · exact ⟨hp.symm,hb.symm⟩
    · rintro ⟨rfl,rfl⟩
      exact .inr ⟨hin,rfl,rfl⟩
  · rename_i hin
    rw [hsame a p b (by omega)]
    exact or_iff_left (fun hc => hin hc.1)

/-- `sys_mprotect` changes protections only exactly when it rejects the call or
every address of the range belongs to an anonymous mapping: it covers holes and
turns file mappings into anonymous ones. -/
theorem mprotect_protects_only (k : Kernel) (cr3 addr length prot : Nat)
    (h : Tidy (k.vmaOf cr3).vmas) :
    ProtectsOnly (k.vmaOf cr3).vmas ((k.sysMprotect cr3 addr length prot).2.vmaOf cr3).vmas
        addr (rangeEnd addr length) ↔
      (MprotectAccepts addr length prot → ∀ a, addr ≤ a → a < rangeEnd addr length →
        ∃ p, Mapped (k.vmaOf cr3).vmas a p none) := by
  rcases mprotect_vmas with ⟨hrej,hvmas⟩ | ⟨hacc,hlt,hvmas⟩
  · rw [vmaOf_of_vmas hvmas]
    exact ⟨fun _ hacc => absurd hacc hrej,fun _ => ProtectsOnly.refl h _ _⟩
  rw [hvmas]
  constructor
  · intro hp _ a hlo hhi
    have hnew : Mapped (((k.vmaOf cr3).removeRange addr (rangeEnd addr length)).insertMerged
        ⟨addr,rangeEnd addr length,prot,none⟩).vmas a prot none := by
      rw [mapped_replaced h hlt,if_pos ⟨hlo,hhi⟩]
      exact ⟨rfl,rfl⟩
    obtain ⟨p,b,hold⟩ := (hp.covered a).mp ⟨prot,none,hnew⟩
    exact ⟨p,hp.backing a p b prot none hold hnew ▸ hold⟩
  · intro hanon
    have hanon := hanon hacc
    refine ⟨?_,?_,?_⟩
    · intro a
      by_cases hin : addr ≤ a ∧ a < rangeEnd addr length
      · obtain ⟨p,hold⟩ := hanon a hin.1 hin.2
        refine ⟨fun _ => ⟨p,none,hold⟩,fun _ => ⟨prot,none,(mapped_replaced h hlt).mpr ?_⟩⟩
        rw [if_pos hin]
        exact ⟨rfl,rfl⟩
      · simp only [Covered,mapped_replaced h hlt,if_neg hin]
    · intro a p b p' b' hold hnew
      rw [mapped_replaced h hlt] at hnew
      split at hnew
      · rename_i hin
        obtain ⟨q,hq⟩ := hanon a hin.1 hin.2
        exact hnew.2.trans (mapped_unique h hq hold).2
      · exact (mapped_unique h hnew hold).2
    · intro a p b p' b' hout hold hnew
      rw [mapped_replaced h hlt,if_neg (by omega)] at hnew
      exact (mapped_unique h hnew hold).1

def anonPages : Kernel := sampleKernel.run [.newUser,.registerVma 0x400000 0x600000 0x602000 3]

theorem mprotect_protects_only_anon : ProtectsOnly (anonPages.vmaOf 0x400000).vmas
      ((anonPages.sysMprotect 0x400000 0x600000 0x1000 1).2.vmaOf 0x400000).vmas
      0x600000 (rangeEnd 0x600000 0x1000) := by
  have hok : Along Kernel.step VmaOk sampleKernel
      [.newUser,.registerVma 0x400000 0x600000 0x602000 3] := by decide +kernel
  have ht : AllTidy anonPages := hok.invariant step_tidy (fun _ => Spans.empty)
  have hm : (0x600000,⟨0x600000,0x602000,3,none⟩) ∈ (anonPages.vmaOf 0x400000).vmas := by
    decide +kernel
  refine (mprotect_protects_only anonPages 0x400000 0x600000 0x1000 1 (ht 0x400000)).mpr ?_
  intro _ a hlo hhi
  have hend : rangeEnd 0x600000 0x1000 ≤ 0x602000 := by decide
  exact ⟨3,_,_,hm,⟨hlo,Nat.lt_of_lt_of_le hhi hend⟩,rfl,rfl⟩

def filePages : Kernel :=
  sampleKernel.run [.newUser,.mmapFile 0x400000 0 0x3000 1 0 ⟨7,0,0x3000,false⟩]

theorem mprotect_drops_file : ¬ ProtectsOnly (filePages.vmaOf 0x400000).vmas
    ((filePages.sysMprotect 0x400000 0x100000000 0x1000 0).2.vmaOf 0x400000).vmas
    0x100000000 (rangeEnd 0x100000000 0x1000) := by
  intro h
  have hold : (0x100000000,⟨0x100000000,0x100003000,1,some ⟨7,0,0x3000,false⟩⟩) ∈
      (filePages.vmaOf 0x400000).vmas := by decide +kernel
  have hnew : (0x100000000,⟨0x100000000,0x100001000,0,none⟩) ∈
      ((filePages.sysMprotect 0x400000 0x100000000 0x1000 0).2.vmaOf 0x400000).vmas := by
    decide +kernel
  have hb := h.backing 0x100000000 1 (some ⟨7,0,0x3000,false⟩) 0 none
    ⟨_,_,hold,⟨by decide,by decide⟩,rfl,rfl⟩ ⟨_,_,hnew,⟨by decide,by decide⟩,rfl,rfl⟩
  cases hb

end Miku.Mm
