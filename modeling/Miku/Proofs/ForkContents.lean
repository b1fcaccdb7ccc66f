import Miku.Proofs.CowPermissions
import Miku.Proofs.MemorySafety

namespace Miku.Mm
open Lib Lib.Ledger Option

variable {s s' : Memory} {cr3 child : Nat} {pte : Pte}

/-- Nothing live sits in a frame the allocator would hand out. -/
structure Sane (s : Memory) : Prop where
  mapped : MappedUsed s
  roots : ∀ p4 ∈ s.spaces, s.pmm.isUsed (p4.frame / 4096) = true
  hint : s.pmm.freeHint ≤ frameCap

theorem root_counted (p4 : P4) : 0 < P4.holds p4 .table p4.frame := by
  unfold P4.holds Dir.holds
  rw [Pi.add_apply,Pi.add_apply,single_self,one_self]
  exact Nat.lt_of_lt_of_le Nat.zero_lt_one (Nat.le_add_right _ _)

theorem Kept.sane (h : Kept iso s) : Sane s := by
  refine ⟨h.mapped_used,fun p4 hm => ?_,h.owned.hint⟩
  have hpos : 0 < (s.holds .table + pooled s.pool) p4.frame := by
    refine Nat.lt_of_lt_of_le ?_ (Nat.le_add_right _ _)
    unfold Memory.holds
    rw [tally_apply,tally_apply]
    exact Nat.lt_of_lt_of_le (root_counted p4) (le_tally hm (fun q => P4.holds q .table p4.frame))
  exact (h.owned.sound.kept _ (Nat.lt_of_lt_of_le hpos (Nat.le_add_right _ _))).2.2

/-- What a step may do to frames in use: nothing. -/
structure Quiet (s s' : Memory) : Prop where
  hint : s.pmm.freeHint ≤ frameCap → s'.pmm.freeHint ≤ frameCap
  used : s.pmm.freeHint ≤ frameCap → ∀ f, s.pmm.isUsed f = true →
    s'.pmm.isUsed f = true ∧ s'.mem (f * 4096) = s.mem (f * 4096)
  disk : s'.disk = s.disk
  swap : s'.swap = s.swap

theorem table_quiet (h : s.allocFrame = some (f,s')) : Quiet s (s'.fillFrame f zeroPage) := by
  obtain ⟨pmm,hp,rfl⟩ := alloc_frame_eq h
  refine ⟨fun hh => ?_,fun hh g hg => ?_,rfl,rfl⟩
  · obtain ⟨n,rfl,-,-,hint,-⟩ := FrameAllocator.alloc_frame_spec hp hh
    exact hint
  · obtain ⟨n,rfl,-,hfree,-,hu⟩ := FrameAllocator.alloc_frame_spec hp hh
    have hne : g ≠ n := by
      rintro rfl
      rw [hfree] at hg
      cases hg
    have hframe : g * 4096 ≠ n * 4096 := by omega
    refine ⟨?_,?_⟩
    · change pmm.isUsed g = true
      rw [hu,if_neg hne]
      exact hg
    · change Function.update s.mem (n * 4096) zeroPage (g * 4096) = _
      exact Function.update_of_ne hframe _ _

theorem quiet_steps : CloneSteps Quiet where
  refl s := ⟨fun h => h,fun _ _ hg => ⟨hg,rfl⟩,rfl,rfl⟩
  trans s1 s2 s3 h g := ⟨fun hh => g.hint (h.hint hh),fun hh f hf => by
      obtain ⟨hu,hm⟩ := h.used hh f hf
      obtain ⟨hu',hm'⟩ := g.used (h.hint hh) f hu
      exact ⟨hu',hm'.trans hm⟩,g.disk.trans h.disk,g.swap.trans h.swap⟩
  share s f := ⟨fun h => h,fun _ _ hg => ⟨hg,rfl⟩,rfl,rfl⟩
  table _ _ _ h := table_quiet h

theorem clone_cow_quiet (h : s.cloneCow cr3 = (some child,s')) : Quiet s s' := by
  rcases clone_cow_walk h with ⟨hr,-⟩ | ⟨src,new,src',dst,ok,s1,s2,-,ha,hc,hres⟩
  · cases hr
  have hq : Quiet s s2 := quiet_steps.trans _ _ _ (table_quiet ha) (clone_p4_rel quiet_steps hc)
  rcases hres with ⟨-,-,rfl⟩ | ⟨-,hr,-⟩
  · exact ⟨hq.hint,hq.used,hq.disk,hq.swap⟩
  · cases hr

theorem clone_cow_fresh (hs : Sane s) (h : s.cloneCow cr3 = (some child,s')) :
    s.space child = none := by
  rcases clone_cow_walk h with ⟨hr,-⟩ | ⟨src,new,src',dst,ok,s1,s2,-,ha,-,hres⟩
  · cases hr
  have hnew : child = new := by
    rcases hres with ⟨-,hr,-⟩ | ⟨-,hr,-⟩
    · exact some.inj hr
    · cases hr
  subst hnew
  obtain ⟨pmm,hp,-⟩ := alloc_frame_eq ha
  obtain ⟨n,rfl,-,hfree,-,-⟩ := FrameAllocator.alloc_frame_spec hp hs.hint
  cases hsp : s.space (n * 4096) with
  | none => rfl
  | some p4 =>
    have hu := hs.roots p4 (List.mem_of_find?_eq_some hsp)
    rw [space_frame hsp,Nat.mul_div_cancel _ (by decide),hfree] at hu
    cases hu

theorem content_swapped (h : s.pteAt cr3 va = some pte) (hs : isSwapPte pte = true) :
    s.content cr3 va = some (s.disk (s.swap.lbaForSlot (slotFromPte pte))
      ⟨va % 4096,Nat.mod_lt _ (by decide)⟩) := by
  unfold Memory.content
  rw [h]
  simp [swap_pte_absent hs,hs]

theorem content_present (h : s.pteAt cr3 va = some pte) (hp : pte.present = true) :
    s.content cr3 va = some (s.mem pte.addr ⟨va % 4096,Nat.mod_lt _ (by decide)⟩) := by
  unfold Memory.content
  rw [h]
  simp [hp]

/-- The child holds the parent's byte at every user address the parent had
mapped exactly when no page of the parent was swapped out. -/
theorem fork_contents (s s' : Memory) (cr3 child : Nat) (hs : Sane s)
    (h : s.cloneCow cr3 = (some child,s')) :
    (∀ va < userSpan, (s.content cr3 va).isSome = true → s'.content child va = s.content cr3 va) ↔
    ∀ va < userSpan, ∀ pte, s.pteAt cr3 va = some pte → isSwapPte pte = false := by
  obtain ⟨src,q4,dst,hsrc,-,hdst,hent⟩ := clone_cow_child h (clone_cow_fresh hs h)
  have hq := clone_cow_quiet h
  have hchild : ∀ va < userSpan, s'.pteAt child va = (s.pteAt cr3 va).map Pte.inherited := by
    intro va hva
    unfold Memory.pteAt
    rw [hsrc,hdst,bind_some,bind_some]
    exact (hent va hva).2
  constructor
  · intro hall va hva pte hpte
    cases hsw : isSwapPte pte with
    | false => rfl
    | true =>
      -- the child has an empty entry there
      have hz : s'.content child va = none := by
        unfold Memory.content
        rw [hchild va hva,hpte,map_some,Pte.inherited,swap_pte_absent hsw,if_neg (by decide)]
        dsimp only
        rw [if_neg (by decide),if_neg (by decide)]
      have hsome := content_swapped hpte hsw
      have := hall va hva (by rw [hsome]; rfl)
      rw [hz,hsome] at this
      cases this
  · intro hno va hva hsome
    cases hpte : s.pteAt cr3 va with
    | none =>
      unfold Memory.content at hsome
      rw [hpte] at hsome
      cases hsome
    | some pte =>
      have hp : pte.present = true := by
        cases hp : pte.present with
        | true => rfl
        | false =>
          unfold Memory.content at hsome
          rw [hpte] at hsome
          simp [hp,hno va hva pte hpte] at hsome
      have hc : s'.pteAt child va = some pte.toCow := by
        rw [hchild va hva,hpte,map_some,inherited_of_present hp]
      have hused : s.pmm.isUsed (pte.addr / 4096) = true := by
        obtain ⟨p4,h4,hv⟩ := bind_eq_some_iff.mp hpte
        exact hs.mapped p4 (List.mem_of_find?_eq_some h4) va pte hv hp
      have hmem := (hq.used hs.hint _ hused).2
      rw [Pte.addr_div_mul] at hmem
      rw [content_present hpte hp,content_present hc (pte.toCow_present.trans hp),Pte.toCow_addr,
        hmem]

theorem clone_cow_pair (h : (s.cloneCow cr3).1 = some child) :
    s.cloneCow cr3 = (some child,(s.cloneCow cr3).2) := Prod.ext h rfl

theorem swapped_page_victim : VictimCurrent (swapKernel.run [.refillPool,.newUser,
    .registerVma 0x440000 0x600000 0x601000 3,.fault 0x440000 0x600000 true true,
    .store 0x440000 0x600000 7]).mm := by
  decide +kernel

theorem swapped_page_sane : Sane (swapKernel.run swappedPage).mm := by
  have hk : Kept False (swapKernel.run swappedPage).mm :=
    run_kept ⟨rfl,rfl,rfl,by decide⟩ ⟨⟨trivial,False.elim⟩,⟨trivial,False.elim⟩,
      ⟨trivial,False.elim⟩,⟨fun h => absurd h (by decide +kernel),False.elim⟩,
      ⟨trivial,False.elim⟩,⟨swapped_page_victim,False.elim⟩,trivial⟩
  exact hk.sane

/-- The equivalence at a parent whose only page is swapped out. -/
theorem fork_contents_swapped :
    ¬ ∀ va < userSpan, ((swapKernel.run swappedPage).mm.content 0x440000 va).isSome = true →
      ((swapKernel.run swappedPage).mm.cloneCow 0x440000).2.content 0x441000 va =
        (swapKernel.run swappedPage).mm.content 0x440000 va := by
  obtain ⟨hpte,hfork⟩ : (swapKernel.run swappedPage).mm.pteAt 0x440000 0x600000 = some 0x1006#64 ∧
      ((swapKernel.run swappedPage).mm.cloneCow 0x440000).1 = some 0x441000 := by
    decide +kernel
  intro hall
  have hno := (fork_contents (swapKernel.run swappedPage).mm _ 0x440000 0x441000
    swapped_page_sane (clone_cow_pair hfork)).mp hall
  exact absurd (hno 0x600000 (by decide) 0x1006#64 hpte) (by decide)

/-- A page swapped out at the fork is missing in the child, whose first read of it finds a
fresh zero page. -/
theorem fork_loses_swapped_page : Sane (swapKernel.run swappedPage).mm ∧
    ((swapKernel.run swappedPage).mm.cloneCow 0x440000).1 = some 0x441000 ∧
    (swapKernel.run swappedPage).mm.content 0x440000 0x600000 = some 7 ∧
    ((swapKernel.run swappedPage).mm.cloneCow 0x440000).2.content 0x441000 0x600000 = none ∧
    (swapKernel.run (swappedPage ++ [.fork 0x440000,.fault 0x441000 0x600000 false true])).mm.load
      0x441000 0x600000 = some 0 :=
  ⟨swapped_page_sane,by decide +kernel⟩

end Miku.Mm
