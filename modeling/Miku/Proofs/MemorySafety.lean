import Miku.Proofs.Steps

namespace Miku.Mm
open Lib Lib.Ledger Option

variable {k : Kernel} {s : Memory}

variable {p4 : P4}

theorem entry_counted (h : p4.pteAt v = some pte) : ∃ rest, p4.holds = rest + entry pte := by
  obtain ⟨f3,p3,f2,p2,f1,p1,h3,h2,h1,rfl⟩ := P4.pteAt_tables h
  obtain ⟨rest,he,-⟩ := P4.holds_split h3 h2 h1
  exact ⟨rest,he⟩

theorem space_mapped (h : p4.pteAt v = some pte)
    (hp : pte.present = true) : 0 < p4.holds.mapped pte.addr := by
  obtain ⟨rest,he⟩ := entry_counted h
  rw [he,Account.mapped_add,entry_mapped hp,add_apply,one_self]
  exact Nat.succ_pos _

theorem holds_mapped (s : Memory) (f : Nat) :
    s.holds.mapped f = tally s.spaces (fun p4 => p4.holds.mapped f) := by
  unfold Memory.holds Account.mapped
  rw [add_apply,tally_apply,tally_apply,tally_apply,tally_apply]
  induction s.spaces with
  | nil => rfl
  | cons p ps ih =>
    simp only [tally_cons]
    rw [← ih,add_add_add_comm]
    rfl

/-- Every frame mapped in a live address space is allocated. -/
def MappedUsed (s : Memory) : Prop :=
  ∀ p4 ∈ s.spaces, ∀ v pte, P4.pteAt p4 v = some pte → pte.present = true →
    s.pmm.isUsed (pte.addr / 4096) = true

theorem Kept.mapped_used (h : Kept iso s) : MappedUsed s := by
  intro p4 hm v pte hv hp
  have hpos : 0 < s.holds.mapped pte.addr := by
    rw [holds_mapped]
    exact Nat.lt_of_lt_of_le (space_mapped hv hp) (le_tally hm (fun p4 => p4.holds.mapped pte.addr))
  exact (h.owned.held_leaf hpos).2.2

theorem not_mapped_used (cr3 v : Nat)
    (h : (s.pteAt cr3 v).map (fun pte => (pte.present,s.pmm.isUsed (pte.addr / 4096))) =
      some (true,false)) : ¬ MappedUsed s := by
  intro hs
  obtain ⟨pte,hpte,he⟩ := map_eq_some_iff.mp h
  simp only [Prod.mk.injEq] at he
  obtain ⟨p4,hp,hv⟩ := bind_eq_some_iff.mp hpte
  have hu := hs p4 (List.mem_of_find?_eq_some hp) v pte hv he.1
  rw [he.2] at hu
  cases hu

/-- In every run whose steps respect sharing and reclaim only current victims, no frame
still mapped is ever free in the allocator. -/
theorem mapped_frames_allocated (k : Kernel) (ops : List Op) (hb : k.Boot)
    (hok : Along Kernel.step FramesOk k ops) : MappedUsed (k.run ops).mm := by
  have hk : Kept False (k.run ops).mm := run_kept hb (hok.imp fun _ _ h => ⟨h,False.elim⟩)
  exact hk.mapped_used

/-- Share counts in the lower half of their range always leave room for a fork,
because they bound the mappings the clone would add. -/
theorem fork_fits_of_small (h : Kept iso s) (hs : ∀ f, s.refcounts.refGet f ≤ 32767) :
    ForkFits s cr3 := by
  intro p4 hp n
  have hle : p4.holds.mapped (n * 4096) ≤ s.holds.mapped (n * 4096) := by
    rw [holds_mapped]
    exact le_tally (List.mem_of_find?_eq_some hp) (fun p4 => p4.holds.mapped (n * 4096))
  have hc : s.holds.mapped (n * 4096) ≤ owners s.refcounts (n * 4096) := h.owned.sound.counted _
  have ho : owners s.refcounts (n * 4096) = s.refcounts.refGet (n * 4096) := by
    unfold owners RefCounts.refGet frameBase
    rw [Nat.mul_div_cancel _ (by decide)]
  have hsmall := hs (n * 4096)
  unfold RefCounts.u16Max
  omega

theorem one_page_fork_fits : ForkFits (sampleKernel.run onePage).mm 0x400000 := by
  have hkept : Kept False (sampleKernel.run onePage).mm :=
    run_kept sample_boot ⟨⟨trivial,False.elim⟩,⟨trivial,False.elim⟩,
      ⟨fun h => absurd h (by decide +kernel),False.elim⟩,trivial⟩
  refine fork_fits_of_small hkept fun f => ?_
  have hrc : (sampleKernel.run onePage).mm.refcounts = fun _ => none := by rfl
  rw [hrc]
  exact (by decide : 1 ≤ 32767)

/-- A child breaks copy-on-write and then unmaps its private copy. -/
theorem mapped_frames_allocated_child : MappedUsed (sampleKernel.run
    (onePage ++ [.fork 0x400000,.fault 0x405000 0x600000 true true,
      .munmap 0x405000 0x600000 0x1000])).mm := by
  refine mapped_frames_allocated sampleKernel _ sample_boot ?_
  refine ⟨trivial,trivial,fun h => absurd h (by decide +kernel),one_page_fork_fits,
    fun h => absurd h (by decide +kernel),?_,trivial⟩
  intro size hsize
  cases hsize
  decide +kernel

/-- `munmap` in the parent frees the frame the child still maps. -/
theorem munmap_frees_shared_frame : sampleKernel.Boot ∧ ¬ MappedUsed (sampleKernel.run
    (onePage ++ [.fork 0x400000,.munmap 0x400000 0x600000 0x1000])).mm := by
  exact ⟨sample_boot,not_mapped_used 0x405000 0x600000 (by decide +kernel)⟩

/-- No frame mapped by two address spaces is writable in either of them. -/
def Isolated (s : Memory) : Prop :=
  ∀ cr cr', cr ≠ cr' → ∀ v w pte pte', s.pteAt cr v = some pte → s.pteAt cr' w = some pte' →
    pte.present = true → pte'.present = true → pte.writable = true → pte.addr ≠ pte'.addr

/-- A store in one address space changes nothing another one can read. -/
def StoresPrivate (s : Memory) : Prop :=
  ∀ cr cr', cr ≠ cr' → ∀ va byte w, (s.store cr va byte).load cr' w = s.load cr' w

theorem Kept.isolated (h : Kept True s) : Isolated s := by
  intro cr cr' hne v w pte pte' hv hw hp hp' hwr he
  obtain ⟨p4,h4,hv⟩ := bind_eq_some_iff.mp hv
  obtain ⟨q4,h4',hw⟩ := bind_eq_some_iff.mp hw
  have hpq : p4 ≠ q4 := by
    rintro rfl
    exact hne ((space_frame h4).symm.trans (space_frame h4'))
  have hmem := List.mem_of_find?_eq_some h4
  have hmem' := List.mem_of_find?_eq_some h4'
  -- two mappings of the frame, one of them writable
  have htwo : 2 ≤ s.holds.mapped pte.addr := by
    have h1 := space_mapped hv hp
    have h2 := space_mapped hw hp'
    rw [← he] at h2
    have h3 := add_le_tally hmem hmem' hpq (fun p4 => p4.holds.mapped pte.addr)
    rw [holds_mapped]
    omega
  have hwpos : 0 < s.holds .writable pte.addr := by
    unfold Memory.holds
    rw [tally_apply,tally_apply]
    refine Nat.lt_of_lt_of_le ?_ (le_tally hmem (fun p4 => P4.holds p4 .writable pte.addr))
    obtain ⟨rest,hr⟩ := entry_counted hv
    rw [hr,entry_writable hp hwr]
    change 0 < rest .writable pte.addr + single .writable pte.addr .writable pte.addr
    rw [single_self,one_self]
    exact Nat.succ_pos _
  have := h.lone trivial pte.addr hwpos
  omega

variable {s' : Memory}

theorem pteAt_of_spaces (h : s'.spaces = s.spaces) (cr v : Nat) : s'.pteAt cr v = s.pteAt cr v := by
  unfold Memory.pteAt Memory.space
  rw [h]

theorem load_congr (h : s'.spaces = s.spaces)
    (hm : ∀ pte, s.pteAt cr w = some pte → pte.present = true → s'.mem pte.addr = s.mem pte.addr) :
    s'.load cr w = s.load cr w := by
  unfold Memory.load
  rw [pteAt_of_spaces h]
  cases hp : s.pteAt cr w with
  | none => rfl
  | some pte =>
    dsimp only
    split
    · rename_i hpr
      rw [hm pte hp hpr]
    · rfl

theorem Isolated.stores_private (h : Isolated s) : StoresPrivate s := by
  intro cr cr' hne va byte w
  refine load_congr (store_spaces s cr va byte) fun pte' hpte' hp' => ?_
  unfold Memory.store
  split
  · rfl
  rename_i pte hpte
  split
  · rename_i hok
    simp only [Bool.and_eq_true] at hok
    exact Function.update_of_ne
      (Ne.symm (h cr cr' hne va w pte pte' hpte hpte' hok.1.1 hp' hok.1.2)) _ _
  · rfl

/-- In every run that also refuses `mprotect` on shared pages, forked address
spaces stay isolated. -/
theorem fork_isolation (k : Kernel) (ops : List Op) (hb : k.Boot)
    (hok : Along Kernel.step (fun k op => FramesOk k op ∧ SharingOk k op) k ops) :
    Isolated (k.run ops).mm ∧ StoresPrivate (k.run ops).mm := by
  have hk : Kept True (k.run ops).mm := run_kept hb (hok.imp fun _ _ h => ⟨h.1,fun _ => h.2⟩)
  exact ⟨hk.isolated,hk.isolated.stores_private⟩

/-- Parent and child after the child's copy, with `mprotect` on the private copy. -/
theorem fork_isolation_child : StoresPrivate (sampleKernel.run
    (onePage ++ [.fork 0x400000,.fault 0x405000 0x600000 true true,
      .mprotect 0x405000 0x600000 0x1000 3])).mm := by
  refine (fork_isolation sampleKernel _ sample_boot ?_).2
  refine ⟨⟨trivial,trivial⟩,⟨trivial,trivial⟩,⟨fun h => absurd h (by decide +kernel),trivial⟩,
    ⟨one_page_fork_fits,trivial⟩,⟨fun h => absurd h (by decide +kernel),trivial⟩,⟨trivial,?_⟩,trivial⟩
  intro _ size hsize
  cases hsize
  decide +kernel

/-- `mprotect` gives the parent write access to the frame it shares with its
child, and the child sees the store that follows. -/
theorem mprotect_breaks_isolation : sampleKernel.Boot ∧ ¬ Isolated (sampleKernel.run
      (onePage ++ [.fork 0x400000,.mprotect 0x400000 0x600000 0x1000 3])).mm ∧
    ¬ StoresPrivate (sampleKernel.run
      (onePage ++ [.fork 0x400000,.mprotect 0x400000 0x600000 0x1000 3])).mm := by
  refine ⟨sample_boot,?_,?_⟩
  · intro h
    exact h 0x400000 0x405000 (by decide) 0x600000 0x600000 0x8000000000401007#64
      0x8000000000401205#64 (by decide +kernel) (by decide +kernel) (by decide) (by decide)
      (by decide) (by decide)
  · intro h
    have hs := h 0x400000 0x405000 (by decide) 0x600000 1 0x600000
    revert hs
    decide +kernel

end Miku.Mm
