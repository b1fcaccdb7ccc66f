import Miku.Proofs.Paging

namespace Miku.Mm
open Lib Lib.Ledger List Memory

variable {s s' : Memory} {cr3 : Nat} {pte : Pte} {α : Type}

variable {op : Memory → Nat → Memory}

theorem foldl_spaces (h : ∀ s i, (op s i).spaces = s.spaces)
    (is : List Nat) (s : Memory) : (is.foldl op s).spaces = s.spaces := by
  induction is generalizing s with
  | nil => rfl
  | cons i is ih => exact (ih _).trans (h s i)

theorem free_pte_spaces (s : Memory) (pte : Pte) : (s.freePte pte).spaces = s.spaces := by
  unfold freePte freeFrameCowSwap
  repeat' split
  all_goals rfl

theorem free_dir_spaces {sub : Memory → α → Memory} (h : ∀ s t, (sub s t).spaces = s.spaces)
    (slots : Nat) (s : Memory) (d : Dir α) : (freeDir slots sub s d).spaces = s.spaces := by
  refine foldl_spaces (fun s i => ?_) _ s
  split
  · rfl
  · exact h _ _

theorem free_p1_spaces (s : Memory) (p1 : P1) : (s.freeP1 p1).spaces = s.spaces := by
  unfold freeP1 freeTable
  dsimp only
  exact foldl_spaces (fun s m => free_pte_spaces s (p1.ptes m)) _ s

theorem free_p4_spaces (s : Memory) (p4 : P4) : (s.freeP4 p4).spaces = s.spaces :=
  free_dir_spaces (free_dir_spaces (free_dir_spaces free_p1_spaces tableSlots) tableSlots)
    userSlots s p4

/-- Running `op` gives back exactly the uses in `X`. -/
def Releases (iso : Prop) (op : Memory → Memory) (X : Account) : Prop :=
  ∀ s A, Books iso s (A + X) → Books iso (op s) A

theorem free_pte_releases : Releases iso (fun s => s.freePte pte) (entry pte) := by
  intro s A h
  dsimp only
  unfold freePte
  split
  · exact ⟨h.forget.owned,h.forget.lone⟩
  split
  · rename_i hp
    exact h.free_cow hp
  · exact h.forget

theorem fold_releases
    (hop : ∀ i, Releases iso (fun s => op s i) (X i)) :
    Releases iso (fun s => is.foldl op s) (tally is X) := by
  induction is with
  | nil => exact fun s A h => h.forget
  | cons i is ih =>
    intro s A h
    rw [tally_cons,add_comm (X i),← add_assoc] at h
    exact ih _ _ (hop i s _ h)

theorem then_free_table {op : Memory → Memory} (hop : Releases iso op X) :
    Releases iso (fun s => (op s).freeTable f) (single .table f + X) := by
  intro s A h
  rw [← add_assoc] at h
  exact (hop s _ h).free_table

theorem free_p1_releases (p1 : P1) : Releases iso (fun s => s.freeP1 p1) p1.holds :=
  then_free_table (fold_releases (fun _ => free_pte_releases))

/-- One turn of the loop over a directory. -/
def freeSlot (sub : Memory → α → Memory) (d : Dir α) (i : Nat) (s : Memory) : Memory :=
  match d.entries i with
  | none => s
  | some (_,t) => sub s t

/-- Only the first `slots` links are followed; whatever the others hold stays
allocated. -/
theorem free_dir_releases {sub : Memory → α → Memory} (more : Nat)
    (hs : tableSlots = slots + more) (hsub : ∀ t, Releases iso (fun s => sub s t) (H t))
    (d : Dir α) : Releases iso (fun s => freeDir slots sub s d) (d.holds H) := by
  have hslot : ∀ i, Releases iso (freeSlot sub d i) (link H (d.entries i)) := by
    intro i
    unfold freeSlot
    cases d.entries i with
    | none => exact fun s A h => h.forget
    | some l => exact hsub l.2
  intro s A h
  unfold Dir.holds at h
  rw [hs,range_add,tally_append,← add_assoc (single .table d.frame),← add_assoc A] at h
  exact then_free_table (fold_releases hslot) s A h.forget

theorem free_p2_releases (p2 : P2) : Releases iso (fun s => s.freeP2 p2) (P2.holds p2) :=
  free_dir_releases 0 rfl free_p1_releases p2

theorem free_p3_releases (p3 : P3) : Releases iso (fun s => s.freeP3 p3) (P3.holds p3) :=
  free_dir_releases 0 rfl free_p2_releases p3

theorem free_p4_releases (p4 : P4) : Releases iso (fun s => s.freeP4 p4) p4.holds :=
  free_dir_releases 256 rfl free_p3_releases p4

theorem Kept.free_address_space (h : Kept iso s) : Kept iso (s.freeAddressSpace cr3) := by
  unfold freeAddressSpace
  split
  · exact h
  rename_i p4 hp
  obtain ⟨rest,he,-,hd⟩ := spaces_split hp
  have hb : Books iso s (rest + p4.holds) := by
    rw [← he]
    exact h
  have hb := free_p4_releases p4 s rest hb
  have hh : tally ((s.freeP4 p4).spaces.eraseP (fun p => p.frame == cr3)) P4.holds = rest := by
    rw [free_p4_spaces]
    exact hd
  unfold Kept Memory.holds
  dsimp only
  rw [hh]
  exact ⟨hb.owned,hb.lone⟩

/-- `X` more owners fit into the share counts. -/
def Room (s : Memory) (X : Nat → Nat) : Prop :=
  ∀ f, f % 4096 = 0 → owners s.refcounts f + X f ≤ RefCounts.u16Max

theorem Room.mono (h : Room s (X + Y)) : Room s X := by
  intro f hf
  have := h f hf
  rw [add_apply] at this
  omega

theorem addr_mod : pte.addr % 4096 = 0 := by
  have := pte.addr_div_mul
  omega

theorem frame_base_addr : frameBase pte.addr = pte.addr := pte.addr_div_mul

theorem Room.spend (h : Room s (X + one pte.addr)) :
    owners s.refcounts pte.addr < RefCounts.u16Max ∧
      Room { s with refcounts := s.refcounts.refInc pte.addr } X := by
  have hlt : owners s.refcounts pte.addr < RefCounts.u16Max := by
    have := h pte.addr addr_mod
    rw [add_apply,one_self] at this
    omega
  refine ⟨hlt,fun f hf => ?_⟩
  have := h f hf
  rw [add_apply] at this
  change owners (s.refcounts.refInc pte.addr) f + X f ≤ _
  rw [ref_inc_owners frame_base_addr hlt]
  omega

/-- A relation that holds across both things a clone does to the state: share a
frame, and set up a table in a fresh one. -/
structure CloneSteps (R : Memory → Memory → Prop) : Prop where
  refl : ∀ s, R s s
  trans : ∀ s1 s2 s3, R s1 s2 → R s2 s3 → R s1 s3
  share : ∀ s f, R s (Memory.setPinned { s with refcounts := s.refcounts.refInc f } f true)
  table : ∀ s s' f, s.allocFrame = some (f,s') → R s (s'.fillFrame f zeroPage)

theorem clone_p1_rel (hR : CloneSteps R) (hc : s.cloneP1 src dst ms = (src',dst',s')) : R s s' := by
  induction ms generalizing s src dst with
  | nil =>
    cases hc
    exact hR.refl _
  | cons m ms ih =>
    unfold cloneP1 at hc
    dsimp only at hc
    split at hc
    · exact ih hc
    split at hc
    · exact ih hc
    · exact hR.trans _ _ _ (hR.share s _) (ih hc)

variable {sub : Memory → α → α → Bool × α × α × Memory} {src dst : Dir α} {mk : Nat → α}

theorem clone_dir_rel (hR : CloneSteps R)
    (hsub : ∀ s t d ok t' d' s', sub s t d = (ok,t',d',s') → R s s')
    (hc : cloneDir mk sub s src dst is = (ok,src',dst',s')) : R s s' := by
  induction is generalizing s src dst with
  | nil =>
    cases hc
    exact hR.refl _
  | cons i is ih =>
    unfold cloneDir at hc
    split at hc
    · exact ih hc
    rename_i flags t hl
    split at hc
    · cases hc
      exact hR.refl _
    rename_i frame s1 ha
    rcases hd : sub (s1.fillFrame frame zeroPage) t (mk frame) with ⟨ok1,t1,d1,s2⟩
    dsimp only at hc
    rw [hd] at hc
    have h2 : R s s2 := hR.trans _ _ _ (hR.table s s1 frame ha) (hsub _ _ _ _ _ _ _ hd)
    dsimp only at hc
    split at hc
    · exact hR.trans _ _ _ h2 (ih hc)
    · cases hc
      exact h2

theorem clone_p4_rel (hR : CloneSteps R) {src dst : P4}
    (hc : s.cloneP4 src dst = (ok,src',dst',s')) : R s s' := by
  have h1 : ∀ s t d ok t' d' s', cloneLast s t d = (ok,t',d',s') → R s s' := by
    intro s t d ok t' d' s' h
    unfold cloneLast at h
    rcases hd : s.cloneP1 t d (List.range tableSlots) with ⟨t1,d1,s1⟩
    rw [hd] at h
    cases h
    exact clone_p1_rel hR hd
  have h2 : ∀ s t d ok t' d' s', cloneP2 s t d = (ok,t',d',s') → R s s' :=
    fun _ _ _ _ _ _ _ h => clone_dir_rel hR h1 h
  have h3 : ∀ s t d ok t' d' s', cloneP3 s t d = (ok,t',d',s') → R s s' :=
    fun _ _ _ _ _ _ _ h => clone_dir_rel hR h2 h
  exact clone_dir_rel hR h3 hc

theorem clone_p4_spaces {src dst : P4}
    (hc : s.cloneP4 src dst = (ok,src',dst',s')) : s'.spaces = s.spaces := by
  have hR : CloneSteps (fun s s' => s'.spaces = s.spaces) :=
    ⟨fun _ => rfl,fun _ _ _ h g => g.trans h,fun _ _ => rfl,
      fun _ _ _ ha => (alloc_grown ha).spaces⟩
  exact clone_p4_rel hR hc

/-- What cloning one table amounts to: source and copy together hold what the
books say, and the share counts used up are those of the source's mappings. -/
structure Cloned (iso : Prop) (s' : Memory) (A : Account) (X : Nat → Nat) (src dst : Account) :
    Prop where
  books : Books iso s' (A + src + dst)
  room : Room s' X

theorem clone_p1_books (ms : List Nat) {src dst src' dst' : P1}
    (hn : ms.Nodup) (hin : ∀ m ∈ ms, m ∈ List.range tableSlots) (hz : ∀ m ∈ ms, dst.ptes m = 0#64)
    (hb : Books iso s (A + src.holds + dst.holds))
    (hr : Room s (X + tally ms (fun m => (entry (src.ptes m)).mapped)))
    (hc : s.cloneP1 src dst ms = (src',dst',s')) : Cloned iso s' A X src'.holds dst'.holds := by
  induction ms generalizing s src dst with
  | nil =>
    cases hc
    exact ⟨hb,hr.mono⟩
  | cons m ms ih =>
    obtain ⟨hm,hn⟩ := nodup_cons.mp hn
    have hin' : ∀ k ∈ ms, k ∈ List.range tableSlots := fun k hk => hin k (mem_cons_of_mem _ hk)
    have hz' : ∀ k ∈ ms, dst.ptes k = 0#64 := fun k hk => hz k (mem_cons_of_mem _ hk)
    rw [tally_cons,add_comm (entry _).mapped,← add_assoc] at hr
    unfold cloneP1 at hc
    dsimp only at hc
    split at hc
    · exact ih hn hin' hz' hb hr.mono hc
    rename_i hp
    have hp : (src.ptes m).present = true := by simpa using hp
    split at hc
    · exact ih hn hin' hz' hb hr.mono hc
    obtain ⟨r,er,sr⟩ := src.holds_split (hin m mem_cons_self)
    obtain ⟨q,eq,sq⟩ := dst.holds_split (hin m mem_cons_self)
    rw [hz m mem_cons_self,entry_absent Pte.zero_present,add_zero] at eq
    rw [er,eq,← add_assoc,add_right_comm] at hb
    rw [entry_mapped hp] at hr
    obtain ⟨hlt,hroom⟩ := hr.spend
    have hsh := hb.share hp hlt
    have hb' : Books iso (Memory.setPinned
        { s with refcounts := s.refcounts.refInc (src.ptes m).addr } (src.ptes m).addr true)
        (A + (src.set m (src.ptes m).toCow).holds + (dst.set m (src.ptes m).toCow).holds) := by
      rw [sr,sq,← add_assoc,← add_assoc,add_right_comm (A + r)]
      exact ⟨hsh.owned,hsh.lone⟩
    -- the slots still to come are not the one just rewritten
    have hne : ∀ k ∈ ms, k ≠ m := fun k hk he => hm (he ▸ hk)
    have ht : tally ms (fun k => (entry ((src.set m (src.ptes m).toCow).ptes k)).mapped) =
        tally ms (fun k => (entry (src.ptes k)).mapped) :=
      tally_congr fun k hk => by rw [P1.set_ne src (hne k hk)]
    exact ih hn hin' (fun k hk => (P1.set_ne dst (hne k hk) _).trans (hz' k hk)) hb'
      (by rw [ht]; exact hroom) hc

/-- A clone routine for the tables one level down. -/
def Clones (iso : Prop) (sub : Memory → α → α → Bool × α × α × Memory) (mk : Nat → α)
    (H : α → Account) : Prop :=
  ∀ s s' A X t t' d' frame ok, sub s t (mk frame) = (ok,t',d',s') →
    Books iso s (A + H t + single .table frame) → Room s (X + (H t).mapped) →
    Cloned iso s' A X (H t') (H d')

theorem clone_dir_books (hsub : Clones iso sub mk H) (hn : is.Nodup)
    (hin : ∀ i ∈ is, i ∈ List.range tableSlots)
    (hz : ∀ i ∈ is, dst.entries i = none) (hb : Books iso s (A + src.holds H + dst.holds H))
    (hr : Room s (X + tally is (fun i => (link H (src.entries i)).mapped)))
    (hc : cloneDir mk sub s src dst is = (ok,src',dst',s')) :
    Cloned iso s' A X (src'.holds H) (dst'.holds H) := by
  induction is generalizing s src dst with
  | nil =>
    cases hc
    exact ⟨hb,hr.mono⟩
  | cons i is ih =>
    obtain ⟨hi,hn⟩ := nodup_cons.mp hn
    have hin' : ∀ k ∈ is, k ∈ List.range tableSlots := fun k hk => hin k (mem_cons_of_mem _ hk)
    have hz' : ∀ k ∈ is, dst.entries k = none := fun k hk => hz k (mem_cons_of_mem _ hk)
    have hne : ∀ k ∈ is, k ≠ i := fun k hk he => hi (he ▸ hk)
    rw [tally_cons,add_comm (link H _).mapped,← add_assoc] at hr
    unfold cloneDir at hc
    split at hc
    · exact ih hn hin' hz' hb hr.mono hc
    rename_i flags t hl
    split at hc
    · cases hc
      exact ⟨hb,hr.mono.mono⟩
    rename_i frame s1 ha
    rcases hd : sub (s1.fillFrame frame zeroPage) t (mk frame) with ⟨ok1,t1,d1,s2⟩
    dsimp only at hc
    rw [hd] at hc
    obtain ⟨r,er,sr⟩ := Dir.holds_split H src (hin i mem_cons_self)
    obtain ⟨q,eq,sq⟩ := Dir.holds_split H dst (hin i mem_cons_self)
    rw [hl] at er hr
    rw [hz i mem_cons_self] at eq
    change dst.holds H = q + 0 at eq
    rw [add_zero] at eq
    change src.holds H = r + H t at er
    rw [er,eq,← add_assoc,add_right_comm] at hb
    -- the new table goes on the books before the level below is copied into it
    obtain ⟨hb1,hlone⟩ := hb.alloc ha
    have hb1 := hb1.hand_table hlone
    have hrc := (alloc_grown ha).refcounts
    have hroom1 : Room (s1.fillFrame frame zeroPage)
        (X + tally is (fun i => (link H (src.entries i)).mapped) + (H t).mapped) := by
      intro f hf
      change owners s1.refcounts f + _ ≤ _
      rw [hrc]
      exact hr f hf
    obtain ⟨hb2,hroom2⟩ := hsub _ _ _ _ _ _ _ _ _ hd ⟨hb1.owned,hb1.lone⟩ hroom1
    have hb3 : Books iso s2 (A + (src.set i (flags,t1)).holds H + (dst.set i (flags,d1)).holds H) := by
      rw [sr,sq,← add_assoc,← add_assoc,add_right_comm (A + r)]
      exact hb2
    dsimp only at hc
    split at hc
    · have ht : tally is (fun k => (link H ((src.set i (flags,t1)).entries k)).mapped) =
          tally is (fun k => (link H (src.entries k)).mapped) :=
        tally_congr fun k hk => by rw [Dir.set_ne src (hne k hk)]
      exact ih hn hin' (fun k hk => (Dir.set_ne dst (hne k hk) _).trans (hz' k hk)) hb3
        (by rw [ht]; exact hroom2) hc
    · cases hc
      exact ⟨hb3,hroom2.mono⟩

theorem mapped_tally (is : List Nat) (X : Nat → Account) :
    (tally is X).mapped = tally is (fun i => (X i).mapped) := by
  induction is with
  | nil => rfl
  | cons i is ih => rw [tally_cons,tally_cons,Account.mapped_add,ih]

theorem clone_dir_clones (hsub : Clones iso sub mk H) (slots more : Nat)
    (hs : tableSlots = slots + more) :
    Clones iso (fun s t d => cloneDir mk sub s t d (List.range slots)) (Dir.empty α)
      (Dir.holds H) := by
  intro s s' A X t t' d' frame ok hc hb hr
  refine clone_dir_books hsub nodup_range ?_ (fun _ _ => rfl) ?_ ?_ hc
  · intro i hi
    have := mem_range.mp hi
    exact mem_range.mpr (by omega)
  · rw [Dir.empty_holds]
    exact hb
  · unfold Dir.holds at hr
    rw [Account.mapped_add,mapped_table,zero_add,mapped_tally,hs,range_add,tally_append,
      ← add_assoc] at hr
    exact hr.mono

theorem clone_last_clones : Clones iso cloneLast P1.empty P1.holds := by
  intro s s' A X t t' d' frame ok hc hb hr
  unfold cloneLast at hc
  rcases hd : s.cloneP1 t (P1.empty frame) (List.range tableSlots) with ⟨t1,d1,s1⟩
  rw [hd] at hc
  cases hc
  refine clone_p1_books _ nodup_range (fun _ h => h) (fun _ _ => rfl) ?_ ?_ hd
  · rw [P1.empty_holds]
    exact hb
  · unfold P1.holds at hr
    rw [Account.mapped_add,mapped_table,zero_add,mapped_tally] at hr
    exact hr

theorem clone_p2_clones : Clones iso cloneP2 (Dir.empty P1) P2.holds :=
  clone_dir_clones clone_last_clones tableSlots 0 rfl

theorem clone_p3_clones : Clones iso cloneP3 (Dir.empty P2) P3.holds :=
  clone_dir_clones clone_p2_clones tableSlots 0 rfl

theorem clone_p4_clones : Clones iso cloneP4 (Dir.empty P3) P4.holds :=
  clone_dir_clones clone_p3_clones userSlots 256 rfl

theorem clone_dir_frames (is : List Nat) (hc : cloneDir mk sub s src dst is = (ok,src',dst',s')) :
    src'.frame = src.frame ∧ dst'.frame = dst.frame := by
  induction is generalizing s src dst with
  | nil =>
    cases hc
    exact ⟨rfl,rfl⟩
  | cons i is ih =>
    unfold cloneDir at hc
    split at hc
    · exact ih hc
    split at hc
    · cases hc
      exact ⟨rfl,rfl⟩
    dsimp only at hc
    split at hc
    · obtain ⟨h1,h2⟩ := ih hc
      exact ⟨h1,h2⟩
    · cases hc
      exact ⟨rfl,rfl⟩

/-- No frame of the parent runs out of share count. -/
def ForkFits (s : Memory) (cr3 : Nat) : Prop :=
  ∀ p4, s.space cr3 = some p4 →
    ∀ n, s.refcounts.refGet (n * 4096) + p4.holds.mapped (n * 4096) ≤ RefCounts.u16Max

theorem ForkFits.room (h : ForkFits s cr3) (hp : s.space cr3 = some p4) :
    Room s p4.holds.mapped := by
  intro f hf
  have hfit := h p4 hp (f / 4096)
  have he : f / 4096 * 4096 = f := by omega
  rw [he] at hfit
  unfold RefCounts.refGet at hfit
  rw [show frameBase f = f from he] at hfit
  exact hfit

theorem Kept.clone_cow (h : Kept iso s) (hfit : ForkFits s cr3) : Kept iso (s.cloneCow cr3).2 := by
  unfold cloneCow
  split
  · exact h
  rename_i src hp
  split
  · exact h
  rename_i new s1 ha
  obtain ⟨rest,he,hset⟩ := space_split hp
  have hb : Books iso s (rest + src.holds) := he ▸ h
  obtain ⟨hb1,hlone⟩ := hb.alloc ha
  have hb1 := hb1.hand_table hlone
  obtain ⟨hrc,hsp⟩ := alloc_grown ha
  rcases hc : (s1.fillFrame new zeroPage).cloneP4 src (Dir.empty P3 new) with ⟨ok,src',dst,s2⟩
  have hroom : Room (s1.fillFrame new zeroPage) (0 + src.holds.mapped) := by
    intro f hf
    change owners s1.refcounts f + _ ≤ _
    rw [hrc,zero_add]
    exact hfit.room hp f hf
  obtain ⟨hb2,-⟩ := clone_p4_clones _ _ _ _ _ _ _ _ _ hc ⟨hb1.owned,hb1.lone⟩ hroom
  have hfr := (clone_dir_frames _ hc).1
  have hsp3 : s2.spaces = s.spaces := (clone_p4_spaces hc).trans hsp
  have hh : (s2.setSpace src').holds = rest + src'.holds := by
    rw [← hset src' hfr]
    exact holds_of_spaces (congrArg (replaceSpace _) hsp3)
  dsimp only
  split
  · change Books iso _ (tally ((s2.setSpace src').spaces ++ [dst]) P4.holds)
    rw [tally_append,tally_cons,tally_nil,add_zero]
    change Books iso _ ((s2.setSpace src').holds + dst.holds)
    rw [hh]
    exact ⟨hb2.owned,hb2.lone⟩
  · have hb3 : Books iso (s2.setSpace src') (rest + src'.holds + dst.holds) := ⟨hb2.owned,hb2.lone⟩
    change Books iso _ (Memory.holds ((s2.setSpace src').freeP4 dst))
    rw [holds_of_spaces (free_p4_spaces _ _),hh]
    exact free_p4_releases dst _ _ hb3

theorem Kept.new_user (h : Kept iso s) (hn : s.newUser = some r) : Kept iso r.2 := by
  obtain ⟨⟨new,s1⟩,ha,rfl⟩ := Option.map_eq_some_iff.mp hn
  obtain ⟨hb,hlone⟩ := Books.alloc h ha
  have hb := hb.hand_table hlone
  change Books iso _ (tally (s1.spaces ++ [Dir.empty P3 new]) P4.holds)
  rw [tally_append,tally_cons,tally_nil,add_zero]
  change Books iso _ (s1.holds + Dir.holds P3.holds (Dir.empty P3 new))
  rw [Dir.empty_holds,holds_of_spaces (alloc_grown ha).spaces]
  exact ⟨hb.owned,hb.lone⟩

end Miku.Mm
