import Miku.Mm.Mmap
import Miku.Proofs.Mapping

namespace Miku.Mm
open Lib Lib.Ledger List Memory

variable {s s' : Memory} {cr3 v : Nat} {flags : Pte}

/-- The page is absent, or its share count records a single owner. -/
def Unshared (s : Memory) (cr3 v : Nat) : Prop :=
  ∀ pte, s.readPteRaw cr3 v = some pte → pte.present = true → s.refcounts.refGet pte.addr ≤ 1

instance (s : Memory) (cr3 v : Nat) : Decidable (Unshared s cr3 v) :=
  match hr : s.readPteRaw cr3 v with
  | none => isTrue fun pte h => by
    rw [hr] at h
    cases h
  | some pte =>
    if h : pte.present = true → s.refcounts.refGet pte.addr ≤ 1 then
      isTrue fun x hx => by
        rw [hr] at hx
        cases hx
        exact h
    else isFalse fun hu => h (hu pte hr)

theorem Kept.track (h : Kept iso s) (phys cr3 virt : Nat) (pinned : Bool) :
    Kept iso (s.track phys cr3 virt pinned) := ⟨h.owned,h.lone⟩

theorem Kept.set_pinned (h : Kept iso s) (phys : Nat) (pinned : Bool) :
    Kept iso (s.setPinned phys pinned) := ⟨h.owned,h.lone⟩

/-- Share counts stay, and no page becomes shared. -/
structure Calm (s s' : Memory) : Prop where
  refcounts : s'.refcounts = s.refcounts
  unshared : ∀ cr v, Unshared s cr v → Unshared s' cr v

theorem Calm.refl (s : Memory) : Calm s s := ⟨rfl,fun _ _ h => h⟩

theorem Calm.trans (h : Calm s1 s2) (g : Calm s2 s3) : Calm s1 s3 :=
  ⟨g.refcounts.trans h.refcounts,fun cr v hu => g.unshared cr v (h.unshared cr v hu)⟩

theorem calm_of_spaces (h : s'.spaces = s.spaces) (hc : s'.refcounts = s.refcounts) : Calm s s' := by
  refine ⟨hc,fun cr w hu x hx hp => ?_⟩
  rw [hc]
  exact hu x (read_of_spaces h cr w ▸ hx) hp

theorem swap_pte_absent (h : isSwapPte raw = true) : raw.present = false := by
  unfold isSwapPte at h
  simp only [Bool.and_eq_true,beq_iff_eq] at h
  unfold Pte.present Pte.has ptePresent
  rw [h.1.1.1]
  rfl

theorem write_calm (hr : s.readPteRaw cr3 v = some pte)
    (hn : flags.present = true → ∀ w, SameEntry w v → Unshared s cr3 w →
      s.refcounts.refGet flags.addr ≤ 1) : Calm s (s.writePteRaw cr3 v flags) := by
  refine ⟨write_refcounts _ _ _ _,?_⟩
  intro cr w hu x hx hp
  rw [write_refcounts]
  rw [read_write hr] at hx
  split at hx
  · rename_i hc
    cases hx
    exact hn hp w hc.2 (hc.1 ▸ hu)
  · exact hu x hx hp

theorem Kept.unmap_page (h : Kept iso s) (hu : Unshared s cr3 v) :
    Kept iso (s.unmapPage cr3 v) := by
  unfold unmapPage
  split
  · exact h
  rename_i pte hr
  obtain ⟨rest,he,hw⟩ := write_split hr
  have hb : Books iso s (rest + entry pte) := he ▸ h
  -- once the frame is dealt with, clearing the entry leaves the rest of the account
  have key : ∀ t : Memory, t.spaces = s.spaces → Books iso t rest →
      Kept iso (t.writePteRaw cr3 v 0#64) := by
    intro t ht hbt
    unfold Kept
    rw [hw t ht,entry_absent Pte.zero_present,add_zero]
    exact hbt.write _ _ _
  dsimp only
  split
  · exact key _ rfl ⟨hb.forget.owned,hb.forget.lone⟩
  split
  · rename_i hp
    have hh := hb.entry_hand hp
    refine key _ rfl (Books.hand_free ?_ (hu pte hr hp))
    exact ⟨hh.owned,hh.lone⟩
  · exact key _ rfl hb.forget

theorem unmap_page_calm (s : Memory) (cr3 v : Nat) : Calm s (s.unmapPage cr3 v) := by
  unfold unmapPage
  split
  · exact .refl s
  rename_i pte hr
  have key : ∀ t : Memory, t.spaces = s.spaces → t.refcounts = s.refcounts →
      Calm s (t.writePteRaw cr3 v 0#64) := by
    intro t ht hc
    exact (calm_of_spaces ht hc).trans
      (write_calm ((read_of_spaces ht cr3 v).trans hr) (fun hp => absurd hp (by decide)))
  dsimp only
  split
  · exact key _ rfl rfl
  split
  · exact key _ rfl rfl
  · exact key _ rfl rfl

theorem unmap_list (is : List Nat) (h : Kept iso s)
    (hu : ∀ i ∈ is, Unshared s cr3 (base + i * pageSize)) :
    Kept iso (is.foldl (fun s i => s.unmapPage cr3 (base + i * pageSize)) s) ∧
      Calm s (is.foldl (fun s i => s.unmapPage cr3 (base + i * pageSize)) s) := by
  induction is generalizing s with
  | nil => exact ⟨h,.refl s⟩
  | cons i is ih =>
    have hc := unmap_page_calm s cr3 (base + i * pageSize)
    obtain ⟨hk,hc'⟩ := ih (h.unmap_page (hu i mem_cons_self))
      (fun j hj => hc.unshared _ _ (hu j (mem_cons_of_mem _ hj)))
    exact ⟨hk,hc.trans hc'⟩

theorem Kept.unmap_pages (h : Kept iso s) (hu : ∀ i < pages, Unshared s cr3 (base + i * pageSize)) :
    Kept iso (s.unmapPages cr3 base pages) ∧ Calm s (s.unmapPages cr3 base pages) :=
  unmap_list _ h (fun i hi => hu i (mem_range.mp hi))

/-- Mapping a frame straight from the allocator; on failure the caller gives
the frame back. -/
theorem Kept.fresh_page (h : Kept iso s)
    (ha : s.allocFrame = some (phys,s1)) (hf : PlainFlags flags)
    (hm : (s1.fillFrame phys data).mapPage cr3 v phys flags = (ok,s2)) :
    Calm s s2 ∧ if ok then Kept iso s2 ∧ Unshared s2 cr3 v else Kept iso (s2.freeFrame phys) := by
  have hg := alloc_grown ha
  obtain ⟨hb,hr⟩ := Books.alloc h ha
  rw [← holds_of_spaces hg.spaces] at hb
  have hb1 : Books iso (s1.fillFrame phys data) ((s1.fillFrame phys data).holds + hand phys) :=
    ⟨hb.owned,hb.lone⟩
  obtain ⟨hrc,hres⟩ := map_page_books hb1 hf (fun _ _ => hr) hm
  obtain ⟨haddr,-,-⟩ := set_addr_of_held hb1.hand_held hf
  have hr2 : s2.refcounts.refGet phys ≤ 1 := hrc ▸ hr
  refine ⟨⟨hrc.trans hg.refcounts,?_⟩,?_⟩
  · intro cr w hu x hx hp
    rcases map_page_reads hm hx with (rfl | rfl) | hx
    · rw [haddr]
      exact hr2
    · exact absurd hp (by decide)
    · rw [hrc]
      change s1.refcounts.refGet x.addr ≤ 1
      rw [hg.refcounts]
      exact hu x ((read_of_spaces hg.spaces cr w).symm.trans hx) hp
  · cases ok with
    | true =>
      refine ⟨hres,fun x hx hp => ?_⟩
      rw [map_page_reads_self hm hx,haddr]
      exact hr2
    | false => exact hres.hand_free hr2

theorem map_fresh_loop (hf : PlainFlags flags) (h : Kept iso s)
    (hu : ∀ j < i, Unshared s cr3 (base + j * pageSize))
    (hm : mapFreshLoop cr3 base flags s i n = (ok,s')) : Kept iso s' ∧ Calm s s' := by
  induction n generalizing s i with
  | zero =>
    cases hm
    exact ⟨h,.refl _⟩
  | succ n ih =>
    unfold mapFreshLoop at hm
    split at hm
    · cases hm
      exact h.unmap_pages hu
    rename_i phys s1 ha
    split at hm
    · rename_i s2 hmap
      obtain ⟨hc,hk,hnew⟩ := h.fresh_page ha hf hmap
      obtain ⟨hk',hc'⟩ := ih hk (fun j hj => by
        rcases Nat.lt_succ_iff_lt_or_eq.mp hj with hlt | rfl
        · exact hc.unshared _ _ (hu j hlt)
        · exact hnew) hm
      exact ⟨hk',hc.trans hc'⟩
    · rename_i s2 hmap
      obtain ⟨hc,hk⟩ := h.fresh_page ha hf hmap
      cases hm
      have hcf : Calm s2 (s2.freeFrame phys) := calm_of_spaces rfl rfl
      have hui : ∀ j < i, Unshared (s2.freeFrame phys) cr3 (base + j * pageSize) :=
        fun j hj => hcf.unshared _ _ (hc.unshared _ _ (hu j hj))
      obtain ⟨hk',hc'⟩ := Kept.unmap_pages hk hui
      exact ⟨hk',(hc.trans hcf).trans hc'⟩

theorem Kept.map_fresh_pages (h : Kept iso s) (hf : PlainFlags flags)
    (hm : s.mapFreshPages cr3 base pages flags = (ok,s')) : Kept iso s' ∧ Calm s s' :=
  map_fresh_loop hf h (fun _ hj => absurd hj (Nat.not_lt_zero _)) hm

theorem virt_to_phys_some (h : s.virtToPhys cr3 v = some phys) :
    ∃ pte, s.readPteRaw cr3 v = some pte ∧ pte.present = true ∧ phys = pte.addr + v % 4096 := by
  unfold virtToPhys at h
  split at h
  · cases h
  rename_i raw hr
  split at h
  · rename_i hp
    cases h
    exact ⟨raw,hr,hp,rfl⟩
  · cases h

/-- The entry is rewritten in place, so only its permissions change hands. -/
theorem Kept.reprotect_page (h : Kept iso s) (hr : s.readPteRaw cr3 v = some pte)
    (hp : pte.present = true) (hf : PlainFlags flags)
    (hu : iso → flags.writable = true → Unshared s cr3 v) :
    Kept iso ((s.unmapPageNoFree cr3 v).mapPage cr3 v pte.addr flags).2 ∧
      Calm s ((s.unmapPageNoFree cr3 v).mapPage cr3 v pte.addr flags).2 := by
  obtain ⟨rest,he,hw⟩ := write_split hr
  have hb : Books iso s (rest + entry pte) := he ▸ h
  have hh := hb.entry_hand hp
  have hun : s.unmapPageNoFree cr3 v = (s.untrack pte.addr).writePteRaw cr3 v 0#64 := by
    unfold unmapPageNoFree
    rw [hr]
    dsimp only
    rw [if_pos hp]
  have hru : (s.untrack pte.addr).readPteRaw cr3 v = some pte := hr
  have hr1 : (s.unmapPageNoFree cr3 v).readPteRaw cr3 v = some 0#64 := by
    rw [hun,read_write hru,if_pos ⟨rfl,.refl v⟩]
  have hb1 : Books iso (s.unmapPageNoFree cr3 v)
      ((s.unmapPageNoFree cr3 v).holds + hand pte.addr) := by
    rw [hun,hw (s.untrack pte.addr) rfl,entry_absent Pte.zero_present,add_zero]
    exact .write (s := s.untrack pte.addr) ⟨hh.owned,hh.lone⟩ _ _ _
  have hrc : (s.unmapPageNoFree cr3 v).refcounts = s.refcounts := by
    rw [hun,write_refcounts]
    rfl
  obtain ⟨haddr,-,-⟩ := set_addr_of_held hh.hand_held hf
  rw [map_page_existing hr1]
  refine ⟨?_,?_⟩
  · obtain ⟨-,hk⟩ := map_page_books hb1 hf (fun hi hw' => by
      rw [hrc]
      exact hu hi hw' pte hr hp) (map_page_existing hr1 pte.addr flags)
    exact hk
  · refine ⟨(write_refcounts _ _ _ _).trans hrc,?_⟩
    intro cr w hsh x hx hxp
    change (Memory.writePteRaw _ cr3 v _).readPteRaw cr w = some x at hx
    change (Memory.writePteRaw _ cr3 v _).refcounts.refGet x.addr ≤ 1
    rw [write_refcounts,hrc]
    rw [read_write hr1] at hx
    split at hx
    · rename_i hc
      obtain ⟨rfl,hse⟩ := hc
      cases hx
      rw [haddr]
      exact hsh pte ((read_same hse s cr).trans hr) hp
    · rename_i hc
      rw [hun,read_write hru,if_neg hc] at hx
      exact hsh x hx hxp

theorem reprotect_list (is : List Nat) (h : Kept iso s) (hb : base % 4096 = 0)
    (hf : PlainFlags flags)
    (hu : iso → flags.writable = true → ∀ i ∈ is, Unshared s cr3 (base + i * pageSize)) :
    Kept iso (is.foldl (fun s i => let p := base + i * pageSize
      match s.virtToPhys cr3 p with
      | none => s
      | some phys => ((s.unmapPageNoFree cr3 p).mapPage cr3 p phys flags).2) s) := by
  induction is generalizing s with
  | nil => exact h
  | cons i is ih =>
    rw [foldl_cons]
    dsimp only
    split
    · exact ih h (fun hi hw j hj => hu hi hw j (mem_cons_of_mem _ hj))
    rename_i phys hv
    obtain ⟨pte,hr,hp,rfl⟩ := virt_to_phys_some hv
    have hz : (base + i * pageSize) % 4096 = 0 := by
      unfold pageSize
      omega
    rw [hz,Nat.add_zero]
    obtain ⟨hk,hc⟩ := h.reprotect_page hr hp hf (fun hi hw => hu hi hw i mem_cons_self)
    exact ih hk (fun hi hw j hj => hc.unshared _ _ (hu hi hw j (mem_cons_of_mem _ hj)))

theorem Kept.reprotect_pages (h : Kept iso s) (hb : base % 4096 = 0) (hf : PlainFlags flags)
    (hu : iso → flags.writable = true → ∀ i < pages, Unshared s cr3 (base + i * pageSize)) :
    Kept iso (s.reprotectPages cr3 base pages flags) :=
  reprotect_list _ h hb hf (fun hi hw i hm => hu hi hw i (mem_range.mp hm))

theorem Kept.copy_or_unshare (h : Kept iso s) (hr : s.readPteRaw cr3 page = some pte)
    (hp : pte.present = true) : Kept iso (s.copyOrUnshare cr3 page pte).2 := by
  obtain ⟨rest,he,hw⟩ := write_split hr
  have hb : Books iso s (rest + entry pte) := he ▸ h
  unfold copyOrUnshare
  dsimp only
  split
  · rename_i hshared
    split
    · exact h
    rename_i new s1 ha
    obtain ⟨hg,hn⟩ := hb.alloc ha
    obtain ⟨hrc,hsp⟩ := alloc_grown ha
    obtain ⟨n,hlt,rfl⟩ := held_entry hg.hand_held
    -- the copy is mapped before the old owner leaves
    have hc := hg.hand_entry (pte.copied_addr hlt) (fun _ _ => hn)
    rw [add_right_comm] at hc
    have hl := hc.leave hp (by rw [hrc]; exact hshared)
    have key : ∀ t : Memory, t.spaces = s.spaces → Books iso t (rest + entry (pte.copied (n * 4096))) →
        Kept iso (t.writePteRaw cr3 page (pte.copied (n * 4096))) := by
      intro t ht hbt
      unfold Kept
      rw [hw t ht]
      exact hbt.write _ _ _
    split
    all_goals
      refine .track (key _ ?_ ?_) _ _ _ _
      · exact hsp
      · exact ⟨hl.owned,hl.lone⟩
  · rename_i hlone
    have hc := (hb.entry_hand hp).hand_entry pte.unshared_addr (fun _ _ => Nat.le_of_not_lt hlone)
    refine .set_pinned ?_ _ _
    unfold Kept
    rw [hw s rfl]
    exact hc.write _ _ _

theorem Kept.break_cow_page (h : Kept iso s) : Kept iso (s.breakCowPage cr3 va).2 := by
  unfold breakCowPage
  dsimp only
  split
  · exact h
  rename_i pte hr
  split
  · exact h
  · rename_i hn
    have hp : pte.present = true := by
      cases hp : pte.present with
      | true => rfl
      | false => simp [hp] at hn
    exact h.copy_or_unshare hr hp

theorem swap_entry_absent :
    (makeSwapPteWithFlags slot flags).present = false := by
  unfold makeSwapPteWithFlags Pte.present Pte.has
  rw [Bits.or_and_of_disjoint,Bits.or_and_of_disjoint]
  · decide
  · exact Bits.and_and_of_disjoint _ (by decide)
  · exact Bits.shiftLeft_and_low _ (by decide)

theorem next_io_same (s : Memory) : s.nextIo.2.pmm = s.pmm ∧ s.nextIo.2.refcounts = s.refcounts ∧
    s.nextIo.2.pool = s.pool ∧ s.nextIo.2.spaces = s.spaces := by
  unfold nextIo
  split <;> exact ⟨rfl,rfl,rfl,rfl⟩

/-- Reclaim's idea of who maps the victim agrees with the page tables, and the
victim has a single owner. -/
def VictimCurrent (s : Memory) : Prop :=
  ∀ v m, s.swapMap.pickVictimAndPin = some (v,m) →
    ∃ pte, s.readPteRaw v.cr3 v.virt = some pte ∧ pte.present = true ∧ pte.addr = v.phys ∧
      s.refcounts.refGet v.phys ≤ 1

instance (s : Memory) : Decidable (VictimCurrent s) :=
  match hv : s.swapMap.pickVictimAndPin with
  | none => isTrue fun v m h => by
    rw [hv] at h
    cases h
  | some (v,m) =>
    match hr : s.readPteRaw v.cr3 v.virt with
    | none => isFalse fun h => by
      obtain ⟨pte,hp,-⟩ := h v m hv
      rw [hr] at hp
      cases hp
    | some pte =>
      if h : pte.present = true ∧ pte.addr = v.phys ∧ s.refcounts.refGet v.phys ≤ 1 then
        isTrue fun v' m' h' => by
          rw [hv] at h'
          cases h'
          exact ⟨pte,hr,h⟩
      else isFalse fun hc => by
        obtain ⟨pte',hp,hrest⟩ := hc v m hv
        rw [hr] at hp
        cases hp
        exact h hrest

theorem swap_out_same (h : s.swapOutInternal phys = (r,s')) :
    s'.pmm = s.pmm ∧ s'.refcounts = s.refcounts ∧ s'.pool = s.pool ∧ s'.spaces = s.spaces := by
  unfold Memory.swapOutInternal at h
  split at h
  · cases h
    exact ⟨rfl,rfl,rfl,rfl⟩
  split at h
  · cases h
    exact ⟨rfl,rfl,rfl,rfl⟩
  rename_i slot swap ha
  obtain ⟨h1,h2,h3,h4⟩ := next_io_same { s with swap := swap }
  dsimp only at h
  split at h <;> cases h <;> exact ⟨h1,h2,h3,h4⟩

theorem swap_in_same (h : s.swapInInternal slot phys = (r,s')) :
    s'.pmm = s.pmm ∧ s'.refcounts = s.refcounts ∧ s'.pool = s.pool ∧ s'.spaces = s.spaces := by
  unfold Memory.swapInInternal at h
  split at h
  · cases h
    exact ⟨rfl,rfl,rfl,rfl⟩
  split at h
  · cases h
    exact ⟨rfl,rfl,rfl,rfl⟩
  obtain ⟨h1,h2,h3,h4⟩ := next_io_same s
  dsimp only at h
  split at h <;> cases h <;> exact ⟨h1,h2,h3,h4⟩

theorem Kept.evict_one (h : Kept iso s) (hv : VictimCurrent s) : Kept iso s.evictOne.2 := by
  unfold evictOne
  split
  · exact h
  split
  · exact h
  split
  · exact h
  rename_i v m hpick
  obtain ⟨pte,hr,hp,haddr,hlone⟩ := hv v m hpick
  split
  · rename_i e s1 hout
    obtain ⟨h1,h2,h3,h4⟩ := swap_out_same hout
    refine .set_pinned ?_ _ _
    unfold Kept
    rw [holds_of_spaces h4]
    exact .congr (s := { s with swapMap := m }) ⟨h.owned,h.lone⟩ h1 h2 h3
  · rename_i slot s1 hout
    obtain ⟨h1,h2,h3,h4⟩ := swap_out_same hout
    obtain ⟨rest,he,hw⟩ := write_split hr
    have hb : Books iso s (rest + entry pte) := he ▸ h
    have hh := hb.entry_hand hp
    rw [haddr] at hh
    have hb1 : Books iso s1 (rest + hand v.phys) :=
      Books.congr (s := { s with swapMap := m }) ⟨hh.owned,hh.lone⟩ h1 h2 h3
    have hb2 := hb1.write v.cr3 v.virt (makeSwapPteWithFlags slot v.pteFlags)
    have hlone2 : (s1.writePteRaw v.cr3 v.virt
        (makeSwapPteWithFlags slot v.pteFlags)).refcounts.refGet v.phys ≤ 1 := by
      rw [write_refcounts,h2]
      exact hlone
    have hk := hb2.hand_free hlone2
    unfold Kept markSwappedWithFlags
    change Books iso _ (Memory.holds (s1.writePteRaw v.cr3 v.virt _))
    rw [hw s1 h4,entry_absent swap_entry_absent,add_zero]
    exact ⟨hk.owned,hk.lone⟩

theorem Kept.frame_for_swapin (h : Kept iso s) (hv : s.pool.pop = none → VictimCurrent s) :
    match s.frameForSwapin with
    | (none,s') => Kept iso s'
    | (some f,s') => Books iso s' (s'.holds + hand f) ∧ s'.refcounts.refGet f ≤ 1 := by
  unfold frameForSwapin
  cases hpop : s.pool.pop with
  | some r =>
    obtain ⟨f,pool⟩ := r
    exact Books.pop h hpop
  | none =>
    have hk := h.evict_one (hv hpop)
    rcases hev : s.evictOne with ⟨r,s1⟩
    rw [hev] at hk
    cases r with
    | none => exact hk
    | some _ =>
      dsimp only
      cases ha : s1.allocFrame with
      | none => exact hk
      | some r =>
        obtain ⟨f,s2⟩ := r
        obtain ⟨hb,hr⟩ := Books.alloc hk ha
        refine ⟨?_,hr⟩
        rw [holds_of_spaces (alloc_grown ha).spaces]
        exact hb

theorem Kept.try_swapin (h : Kept iso s)
    (hv : s.pool.pop = none → VictimCurrent s) : Kept iso (s.trySwapin cr3 page slot raw).2 := by
  have hframe := h.frame_for_swapin hv
  unfold trySwapin
  rcases hf : s.frameForSwapin with ⟨_ | f,s1⟩
  · rw [hf] at hframe
    exact hframe
  rw [hf] at hframe
  obtain ⟨hb,hr⟩ := hframe
  dsimp only
  rcases hin : s1.swapInInternal slot f with ⟨r,s2⟩
  obtain ⟨h1,h2,h3,h4⟩ := swap_in_same hin
  have hb2 : Books iso s2 (s2.holds + hand f) := by
    rw [holds_of_spaces h4]
    exact hb.congr h1 h2 h3
  have hr2 : s2.refcounts.refGet f ≤ 1 := h2 ▸ hr
  cases r with
  | error e => exact hb2.hand_free hr2
  | ok _ =>
    rcases hm : s2.mapPage cr3 page f (swapinFlags raw) with ⟨ok,s3⟩
    obtain ⟨-,hres⟩ := map_page_books hb2 (swapin_flags_plain raw) (fun _ _ => hr2) hm
    dsimp only
    rw [hm]
    refine .track ?_ _ _ _ _
    cases ok with
    | true => exact hres
    | false => exact hres.forget

theorem Kept.refill_loop (n : Nat) (h : Kept iso s) : Kept iso (s.refillLoop n) := by
  induction n generalizing s with
  | zero => exact h
  | succ n ih =>
    unfold refillLoop
    split
    · exact h
    rename_i f t ha
    obtain ⟨hb,hr⟩ := Books.alloc h ha
    rw [← holds_of_spaces (alloc_grown ha).spaces] at hb
    split
    · exact hb.hand_free hr
    · rename_i pool hpush
      exact ih (hb.hand_push hr hpush)

end Miku.Mm
