import Miku.Proofs.Fork

namespace Miku.Mm
open List Option Memory

variable {s : Memory} {v : Nat} {α : Type}

def P1.shows (p : P1) (v : Nat) : Option Pte := some (p.ptes (ptIndex v 0))

def P2.shows : P2 → Nat → Option Pte := Mm.sees P1.shows 1
def P3.shows : P3 → Nat → Option Pte := Mm.sees P2.shows 2
def P4.shows : P4 → Nat → Option Pte := Mm.sees P3.shows 3

theorem P4.pteAt_eq (p4 : P4) (v : Nat) : p4.pteAt v = p4.shows v := by
  unfold P4.pteAt P4.shows P3.shows P2.shows Mm.sees P1.shows
  split
  · simp [*]
  split
  · simp [*]
  split <;> simp [*]

variable {p4 : P4}

theorem P4.pteAt_of_read (h : p4.readPteRaw v = some pte) : p4.pteAt v = some pte := by
  obtain ⟨f3,p3,f2,p2,f1,p1,h3,h2,h1,-,rfl⟩ := P4.read_tables h
  unfold P4.pteAt
  simp [h3,h2,h1]

/-- Present entries of the source turn copy-on-write, and the copy gets the
same entry. -/
theorem clone_p1_entries (hn : ms.Nodup)
    (hc : s.cloneP1 src dst ms = (src',dst',s')) :
    src'.ptes m = (if m ∈ ms ∧ (src.ptes m).present = true then (src.ptes m).toCow
      else src.ptes m) ∧
    dst'.ptes m = (if m ∈ ms ∧ (src.ptes m).present = true then (src.ptes m).toCow
      else dst.ptes m) := by
  induction ms generalizing s src dst with
  | nil =>
    cases hc
    rw [if_neg (fun h => not_mem_nil h.1),if_neg (fun h => not_mem_nil h.1)]
    exact ⟨rfl,rfl⟩
  | cons i is ih =>
    obtain ⟨hi,hn⟩ := nodup_cons.mp hn
    unfold cloneP1 at hc
    dsimp only at hc
    split at hc
    · rename_i hp
      have hp : (src.ptes i).present = false := by simpa using hp
      obtain ⟨h1,h2⟩ := ih hn hc
      by_cases hm : m = i
      · subst hm
        rw [if_neg (fun h => hi h.1)] at h1 h2
        rw [if_neg (by simp [hp]),if_neg (by simp [hp])]
        exact ⟨h1,h2⟩
      · simp only [mem_cons,hm,false_or]
        exact ⟨h1,h2⟩
    rename_i hp
    have hp : (src.ptes i).present = true := by simpa using hp
    split at hc
    · rename_i hsw
      rw [swap_pte_absent hsw] at hp
      cases hp
    · obtain ⟨h1,h2⟩ := ih hn hc
      by_cases hm : m = i
      · subst hm
        rw [if_neg (fun h => hi h.1),P1.set_self] at h1 h2
        rw [if_pos ⟨mem_cons_self,hp⟩,if_pos ⟨mem_cons_self,hp⟩]
        exact ⟨h1,h2⟩
      · rw [P1.set_ne src hm] at h1 h2
        rw [P1.set_ne dst hm] at h2
        simp only [mem_cons,hm,false_or]
        exact ⟨h1,h2⟩

variable {mk : Nat → α} {sub : Memory → α → α → Bool × α × α × Memory}

/-- A slot of a cloned directory was either left alone or handed to the clone
routine one level down; a successful clone leaves no used slot alone. -/
theorem clone_dir_entries (is : List Nat) (hn : is.Nodup)
    (hc : cloneDir mk sub s src dst is = (ok,src',dst',s')) (i : Nat) :
    (src'.entries i = src.entries i ∧ dst'.entries i = dst.entries i ∧
      (ok = true → i ∈ is → src.entries i = none)) ∨
    ∃ flags t frame t' d' ok' s1 s2, i ∈ is ∧ src.entries i = some (flags,t) ∧
      sub s1 t (mk frame) = (ok',t',d',s2) ∧ src'.entries i = some (flags,t') ∧
      dst'.entries i = some (flags,d') ∧ (ok = true → ok' = true) := by
  induction is generalizing s src dst with
  | nil =>
    cases hc
    exact .inl ⟨rfl,rfl,fun _ h => absurd h not_mem_nil⟩
  | cons j js ih =>
    obtain ⟨hj,hjs⟩ := nodup_cons.mp hn
    unfold cloneDir at hc
    split at hc
    · rename_i hl
      rcases ih hjs hc with ⟨h1,h2,h3⟩ | ⟨fl,t,fr,t',d',ok',s1,s2,hi,h⟩
      · refine .inl ⟨h1,h2,fun hok hi => ?_⟩
        rcases mem_cons.mp hi with rfl | hi
        · exact hl
        · exact h3 hok hi
      · exact .inr ⟨fl,t,fr,t',d',ok',s1,s2,mem_cons_of_mem _ hi,h⟩
    rename_i flags t hl
    split at hc
    · cases hc
      exact .inl ⟨rfl,rfl,fun h => by cases h⟩
    rename_i frame s1 ha
    rcases hd : sub (s1.fillFrame frame zeroPage) t (mk frame) with ⟨ok1,t1,d1,s2⟩
    dsimp only at hc
    rw [hd] at hc
    dsimp only at hc
    -- the slot just handled, if it is the one asked about
    have hself : ∀ b, (b = true → ok1 = true) → ∃ flags' t0 frame' t' d' ok' r1 r2, j ∈ j :: js ∧
        src.entries j = some (flags',t0) ∧ sub r1 t0 (mk frame') = (ok',t',d',r2) ∧
        (src.set j (flags,t1)).entries j = some (flags',t') ∧
        (dst.set j (flags,d1)).entries j = some (flags',d') ∧ (b = true → ok' = true) :=
      fun b hb => ⟨flags,t,frame,t1,d1,ok1,_,s2,mem_cons_self,hl,hd,Dir.set_self _ _ _,
        Dir.set_self _ _ _,hb⟩
    split at hc
    · rename_i hok1
      by_cases hij : i = j
      · subst hij
        rcases ih hjs hc with ⟨h1,h2,-⟩ | ⟨fl,t,fr,t',d',ok',r1,r2,hi,-⟩
        · rw [h1,h2]
          exact .inr (hself ok (fun _ => hok1))
        · exact absurd hi hj
      · rcases ih hjs hc with ⟨h1,h2,h3⟩ | ⟨fl,t,fr,t',d',ok',r1,r2,hi,hs,h⟩
        · rw [Dir.set_ne src hij] at h1 h3
          rw [Dir.set_ne dst hij] at h2
          refine .inl ⟨h1,h2,fun hok hi => ?_⟩
          rcases mem_cons.mp hi with he | hi
          · exact absurd he hij
          · exact h3 hok hi
        · rw [Dir.set_ne src hij] at hs
          exact .inr ⟨fl,t,fr,t',d',ok',r1,r2,mem_cons_of_mem _ hi,hs,h⟩
    · cases hc
      by_cases hij : i = j
      · subst hij
        exact .inr (hself false (fun h => by cases h))
      · rw [Dir.set_ne src hij,Dir.set_ne dst hij]
        exact .inl ⟨rfl,rfl,fun h => by cases h⟩

/-- What a fork makes of an entry in the parent. -/
def Pte.cowed (p : Pte) : Pte := if p.present then p.toCow else p

/-- What the child finds in its place. -/
def Pte.inherited (p : Pte) : Pte := if p.present then p.toCow else 0#64

/-- Entries of `t'` are those of `t`, some of them marked copy-on-write. -/
def Marked (S : α → Nat → Option Pte) (t t' : α) : Prop :=
  ∀ v, S t' v = S t v ∨ S t' v = (S t v).map Pte.cowed

/-- `t'` and `d` are parent and child of a completed fork of `t`. -/
def Copied (S : α → Nat → Option Pte) (t t' d : α) : Prop :=
  ∀ v, S t' v = (S t v).map Pte.cowed ∧ S d v = (S t v).map Pte.inherited

def CopiesEntries (S : α → Nat → Option Pte) (mk : Nat → α)
    (sub : Memory → α → α → Bool × α × α × Memory) : Prop :=
  ∀ s s' t t' d frame ok, sub s t (mk frame) = (ok,t',d,s') →
    Marked S t t' ∧ (ok = true → Copied S t t' d)

theorem clone_last_entries : CopiesEntries P1.shows P1.empty cloneLast := by
  intro s s' t t' d frame ok h
  unfold cloneLast at h
  rcases hc : s.cloneP1 t (P1.empty frame) (List.range tableSlots) with ⟨t1,d1,s1⟩
  rw [hc] at h
  cases h
  have hcop : Copied P1.shows t t' d := by
    intro v
    have hmem : ptIndex v 0 ∈ List.range tableSlots := mem_range.mpr (Nat.mod_lt _ (by decide))
    obtain ⟨h1,h2⟩ := clone_p1_entries nodup_range hc
    unfold P1.shows Pte.cowed Pte.inherited
    rw [h1,h2]
    by_cases hp : (t.ptes (ptIndex v 0)).present = true
    · rw [if_pos ⟨hmem,hp⟩,if_pos ⟨hmem,hp⟩,map_some,map_some,if_pos hp,if_pos hp]
      exact ⟨rfl,rfl⟩
    · rw [if_neg (fun h => hp h.2),if_neg (fun h => hp h.2),map_some,map_some,if_neg hp,if_neg hp]
      exact ⟨rfl,rfl⟩
  exact ⟨fun v => .inr (hcop v).1,fun _ => hcop⟩

/-- A directory clone carries the entries over as its subtables do, as far as
its walk goes. -/
theorem clone_dir_shows (hsub : CopiesEntries S mk sub) (level : Nat)
    (hc : cloneDir mk sub s src (Dir.empty α frame) (List.range slots) = (ok,src',dst',s')) :
    Marked (sees S level) src src' ∧ (ok = true → ∀ v, ptIndex v level < slots →
      sees S level src' v = (sees S level src v).map Pte.cowed ∧
      sees S level dst' v = (sees S level src v).map Pte.inherited) := by
  have hslot := fun v => clone_dir_entries _ nodup_range hc (ptIndex v level)
  refine ⟨fun v => ?_,fun hok v hv => ?_⟩
  · unfold sees
    rcases hslot v with ⟨h1,-,-⟩ | ⟨fl,t,fr,t',d',ok',s1,s2,-,hs,hd,h1,-,-⟩
    · exact .inl (by rw [h1])
    · rw [hs,h1]
      exact (hsub _ _ _ _ _ _ _ hd).1 v
  · unfold sees
    rcases hslot v with ⟨h1,h2,h3⟩ | ⟨fl,t,fr,t',d',ok',s1,s2,-,hs,hd,h1,h2,hok'⟩
    · rw [h1,h2,h3 hok (mem_range.mpr hv)]
      exact ⟨rfl,rfl⟩
    · rw [hs,h1,h2]
      exact (hsub _ _ _ _ _ _ _ hd).2 (hok' hok) v

theorem clone_full_entries (hsub : CopiesEntries S mk sub) (level : Nat) :
    CopiesEntries (sees S level) (Dir.empty α)
      (fun s t d => cloneDir mk sub s t d (List.range tableSlots)) := by
  intro s s' t t' d frame ok hc
  obtain ⟨hm,hcop⟩ := clone_dir_shows hsub level hc
  exact ⟨hm,fun hok v => hcop hok v (Nat.mod_lt _ (by decide))⟩

theorem clone_p2_entries : CopiesEntries P2.shows (Dir.empty P1) cloneP2 :=
  clone_full_entries clone_last_entries 1

theorem clone_p3_entries : CopiesEntries P3.shows (Dir.empty P2) cloneP3 :=
  clone_full_entries clone_p2_entries 2

/-- The user half of an address space is the part below this address. -/
def userSpan : Nat := 2 ^ 47

theorem user_slot (h : v < userSpan) : ptIndex v 3 < userSlots := by
  unfold ptIndex userSlots userSpan at *
  simp only [Nat.reduceMul,Nat.reduceAdd,Nat.reducePow] at *
  omega

theorem clone_p4_entries {src src' dst' : P4}
    (hc : s.cloneP4 src (Dir.empty P3 frame) = (ok,src',dst',s')) : Marked P4.pteAt src src' ∧
    (ok = true → ∀ v < userSpan, src'.pteAt v = (src.pteAt v).map Pte.cowed ∧
      dst'.pteAt v = (src.pteAt v).map Pte.inherited) := by
  obtain ⟨hm,hcop⟩ := clone_dir_shows clone_p3_entries 3 hc
  refine ⟨fun v => ?_,fun hok v hv => ?_⟩
  · rw [P4.pteAt_eq,P4.pteAt_eq]
    exact hm v
  · rw [P4.pteAt_eq,P4.pteAt_eq,P4.pteAt_eq]
    exact hcop hok v (user_slot hv)

/-- A fork that got as far as its walk: who was copied, into what, and the state
it leaves. -/
theorem clone_cow_walk (h : s.cloneCow c = (r,s')) :
    (r = none ∧ s' = s) ∨ ∃ src new src' dst ok s1 s2, s.space c = some src ∧
      s.allocFrame = some (new,s1) ∧
      (s1.fillFrame new zeroPage).cloneP4 src (Dir.empty P3 new) = (ok,src',dst,s2) ∧
      ((ok = true ∧ r = some new ∧
        s' = { s2.setSpace src' with spaces := (s2.setSpace src').spaces ++ [dst] }) ∨
       (ok = false ∧ r = none ∧ s' = (s2.setSpace src').freeP4 dst)) := by
  unfold cloneCow at h
  split at h
  · cases h
    exact .inl ⟨rfl,rfl⟩
  rename_i src hsrc
  split at h
  · cases h
    exact .inl ⟨rfl,rfl⟩
  rename_i new s1 ha
  rcases hc : (s1.fillFrame new zeroPage).cloneP4 src (Dir.empty P3 new) with ⟨ok,src',dst,s2⟩
  rw [hc] at h
  refine .inr ⟨src,new,src',dst,ok,s1,s2,hsrc,ha,hc,?_⟩
  cases ok with
  | true =>
    cases h
    exact .inl ⟨rfl,rfl,rfl⟩
  | false =>
    cases h
    exact .inr ⟨rfl,rfl,rfl⟩

theorem clone_cow_space {new : Nat} {src dst : P4} {s1 s2 : Memory}
    (hsrc : s.space c = some src) (ha : s.allocFrame = some (new,s1))
    (hc : (s1.fillFrame new zeroPage).cloneP4 src (Dir.empty P3 new) = (ok,src',dst,s2))
    : (s2.setSpace src').space cr = if cr = c then some src' else s.space cr := by
  have hsp : s2.spaces = s.spaces := (clone_p4_spaces hc).trans (alloc_grown ha).spaces
  rw [← space_set hsrc (clone_dir_frames _ hc).1 cr]
  unfold space setSpace
  rw [hsp]

/-- A live address space survives anybody's fork, with entries marked at most. -/
theorem clone_cow_marks (h : s.cloneCow c = (r,s')) (hp : s.space cr = some p4) :
    ∃ q4, s'.space cr = some q4 ∧ Marked P4.pteAt p4 q4 := by
  rcases clone_cow_walk h with ⟨-,rfl⟩ | ⟨src,new,src',dst,ok,s1,s2,hsrc,ha,hc,hres⟩
  · exact ⟨p4,hp,fun v => .inl rfl⟩
  have hfind : ∃ q4, (s2.setSpace src').space cr = some q4 ∧ Marked P4.pteAt p4 q4 := by
    rw [clone_cow_space hsrc ha hc]
    by_cases he : cr = c
    · subst he
      rw [hsrc] at hp
      cases hp
      exact ⟨src',if_pos rfl,(clone_p4_entries hc).1⟩
    · exact ⟨p4,(if_neg he).trans hp,fun v => .inl rfl⟩
  obtain ⟨q4,hq,hm⟩ := hfind
  refine ⟨q4,?_,hm⟩
  rcases hres with ⟨-,-,rfl⟩ | ⟨-,-,rfl⟩
  · unfold space at hq ⊢
    rw [find?_append,hq]
    rfl
  · unfold space
    rw [free_p4_spaces]
    exact hq

theorem clone_cow_child {child : Nat} (h : s.cloneCow c = (some child,s'))
    (hfresh : s.space child = none) :
    ∃ src q4 dst, s.space c = some src ∧ s'.space c = some q4 ∧ s'.space child = some dst ∧
      ∀ v < userSpan, q4.pteAt v = (src.pteAt v).map Pte.cowed ∧
        dst.pteAt v = (src.pteAt v).map Pte.inherited := by
  rcases clone_cow_walk h with ⟨hr,-⟩ | ⟨src,new,src',dst,ok,s1,s2,hsrc,ha,hc,hres⟩
  · cases hr
  rcases hres with ⟨rfl,hr,rfl⟩ | ⟨-,hr,-⟩
  · cases hr
    have hne : child ≠ c := by
      rintro rfl
      rw [hfresh] at hsrc
      cases hsrc
    refine ⟨src,src',dst,hsrc,?_,?_,(clone_p4_entries hc).2 rfl⟩
    · have hq := (clone_cow_space hsrc ha hc).trans (if_pos rfl)
      unfold space at hq ⊢
      rw [find?_append,hq]
      rfl
    · have hq := ((clone_cow_space hsrc ha hc).trans (if_neg hne)).trans hfresh
      have hd : dst.frame = child := (clone_dir_frames _ hc).2
      unfold space at hq ⊢
      rw [find?_append,hq,none_or,find?_cons,beq_iff_eq.mpr hd]
  · cases hr

variable {s0 s : Memory} {k : Kernel} {m addr : Nat} {pte0 pte : Pte}

/-- `m` in state `s` is the address space `cr` of state `s0` or one of its descendants,
with only forks in between. -/
inductive Forked (s0 : Memory) (cr : Nat) : Memory → Nat → Prop where
  | start (p4 : P4) : s0.space cr = some p4 → Forked s0 cr s0 cr
  | other (s s' : Memory) (m c : Nat) (r : Option Nat) : Forked s0 cr s m →
      s.cloneCow c = (r,s') → Forked s0 cr s' m
  | child (s s' : Memory) (m c : Nat) : Forked s0 cr s m → s.cloneCow m = (some c,s') →
      s.space c = none → Forked s0 cr s' c

theorem cowed_of_present (h : pte.present = true) : pte.cowed = pte.toCow := if_pos h

theorem inherited_of_present (h : pte.present = true) : pte.inherited = pte.toCow := if_pos h

/-- All a family can make of a present entry is to mark it. -/
theorem forked_entry (h : Forked s0 cr s m) (hv : v < userSpan)
    (h0 : s0.pteAt cr v = some pte0) (hp : pte0.present = true) :
    (∃ p4, s.space m = some p4) ∧ (s.pteAt m v = some pte0 ∨ s.pteAt m v = some pte0.toCow) := by
  have hcow : pte0.toCow.present = true := pte0.toCow_present.trans hp
  induction h with
  | start p4 hs => exact ⟨⟨p4,hs⟩,.inl h0⟩
  | other s s' m c r hf hc ih =>
    obtain ⟨⟨p4,hs⟩,he⟩ := ih
    obtain ⟨q4,hq,hm⟩ := clone_cow_marks hc hs
    refine ⟨⟨q4,hq⟩,?_⟩
    unfold Memory.pteAt at he ⊢
    rw [hs,bind_some] at he
    rw [hq,bind_some]
    rcases hm v with hm | hm
    · rwa [hm]
    · rw [hm]
      rcases he with he | he
      · rw [he,map_some,cowed_of_present hp]
        exact .inr rfl
      · rw [he,map_some,cowed_of_present hcow,Pte.toCow_toCow]
        exact .inr rfl
  | child s s' m c hf hc hfresh ih =>
    obtain ⟨-,he⟩ := ih
    obtain ⟨src,q4,dst,hs,hq,hd,hent⟩ := clone_cow_child hc hfresh
    refine ⟨⟨dst,hd⟩,.inr ?_⟩
    unfold Memory.pteAt at he ⊢
    rw [hs,bind_some] at he
    rw [hd,bind_some,(hent v hv).2]
    rcases he with he | he
    · rw [he,map_some,inherited_of_present hp]
    · rw [he,map_some,inherited_of_present hcow,Pte.toCow_toCow]

theorem pteAt_of_read (h : s.readPteRaw cr v = some pte) : s.pteAt cr v = some pte := by
  obtain ⟨p4,hp,hr⟩ := bind_eq_some_iff.mp h
  unfold Memory.pteAt
  rw [hp]
  exact P4.pteAt_of_read hr

theorem frame_base_same (addr : Nat) : SameEntry addr (frameBase addr) :=
  .of_page (by unfold frameBase; omega)

/-- Resolving a copy-on-write fault always yields write access; it fails only
when the page is shared and no frame is free. -/
theorem copy_or_unshare_entry (hr : s.readPteRaw cr page = some pte) :
    (1 < s.refcounts.refGet pte.addr ∧ s.allocFrame = none →
      s.copyOrUnshare cr page pte = (false,s)) ∧
    (¬ (1 < s.refcounts.refGet pte.addr ∧ s.allocFrame = none) →
      (s.copyOrUnshare cr page pte).1 = true ∧
      ∃ new, (s.copyOrUnshare cr page pte).2.readPteRaw cr page = some new ∧
        new.writable = true) := by
  unfold Memory.copyOrUnshare
  dsimp only
  by_cases hsh : 1 < s.refcounts.refGet pte.addr
  · rw [if_pos hsh]
    cases ha : s.allocFrame with
    | none => exact ⟨fun _ => rfl,fun h => absurd ⟨hsh,rfl⟩ h⟩
    | some r =>
      obtain ⟨new,s1⟩ := r
      refine ⟨(fun h => nomatch h.2),fun _ => ⟨rfl,pte.copied new,?_,pte.copied_writable new⟩⟩
      have hr1 : s1.readPteRaw cr page = some pte :=
        (read_of_spaces (alloc_grown ha).spaces cr page).trans hr
      dsimp only
      have key : ∀ t : Memory, t.spaces = s1.spaces →
          ((t.writePteRaw cr page (pte.copied new)).track new cr page false).readPteRaw cr page =
            some (pte.copied new) := by
        intro t ht
        have hrt := (read_of_spaces ht cr page).trans hr1
        change (t.writePteRaw cr page (pte.copied new)).readPteRaw cr page = _
        rw [read_write hrt,if_pos ⟨rfl,.refl page⟩]
      split
      · exact key _ rfl
      · exact key _ rfl
  · rw [if_neg hsh]
    refine ⟨fun h => absurd h.1 hsh,fun _ => ⟨rfl,pte.unshared,?_,pte.unshared_writable⟩⟩
    change (s.writePteRaw cr page pte.unshared).readPteRaw cr page = _
    rw [read_write hr,if_pos ⟨rfl,.refl page⟩]

/-- A write fault on a present page: copy-on-write pages go through the copy,
anything else is left to the caller. -/
theorem fault_on_present (hz : frameBase addr ≠ 0)
    (hu : frameBase addr < userEnd) (hr : k.mm.readPteRaw m (frameBase addr) = some pte)
    (hp : pte.present = true) : (k.pageFaultHandler m addr isWrite fromUser).2 =
      if isWrite && pte.cow then
        { k with mm := (k.mm.copyOrUnshare m (frameBase addr) pte).2 } else k := by
  have hsw : isSwapPte pte = false := by
    cases hs : isSwapPte pte with
    | false => rfl
    | true =>
      rw [swap_pte_absent hs] at hp
      cases hp
  have hsafe : (frameBase addr != 0 && decide (frameBase addr < userEnd)) = true := by
    simp [hz,hu]
  unfold Kernel.pageFaultHandler
  simp only [hsafe,↓reduceIte,hr]
  unfold Kernel.faultOnEntry
  simp only [hsw,hp,Bool.false_eq_true,↓reduceIte,Bool.and_true]
  cases hc : (isWrite && pte.cow) with
  | false => simp only [Bool.false_eq_true,↓reduceIte,hr,map_some,hp,getD_some,
      Bool.not_true,Bool.and_false]
  | true =>
    obtain ⟨hfail,hdone⟩ := copy_or_unshare_entry hr
    by_cases hx : 1 < k.mm.refcounts.refGet pte.addr ∧ k.mm.allocFrame = none
    · simp [hfail hx,hr,hp]
    · simp [(hdone hx).1]

/-- Write access after the fault, as the hardware will see it. -/
def writableAt (s : Memory) (cr v : Nat) : Prop := (s.pteAt cr v).map Pte.writable = some true

instance (s : Memory) (cr v : Nat) : Decidable (writableAt s cr v) :=
  inferInstanceAs (Decidable (_ = _))

theorem copy_or_unshare_writable (hr : s.readPteRaw m (frameBase addr) = some pte)
    (hx : ¬ (1 < s.refcounts.refGet pte.addr ∧ s.allocFrame = none)) :
    writableAt (s.copyOrUnshare m (frameBase addr) pte).2 m addr := by
  obtain ⟨-,new,hn,hw⟩ := (copy_or_unshare_entry hr).2 hx
  unfold writableAt
  rw [pteAt_of_read ((read_same (frame_base_same addr) _ m).trans hn),map_some,hw]

/-- After any number of forks, a write fault (or a kernel write through `break_cow_page`)
respects the permission the page had before it was first marked exactly when that was
read-write, the page is not marked, or it is shared and no frame is left for a copy. -/
theorem cow_fault_keeps_permission (s0 : Memory) (k : Kernel) (cr m addr : Nat) (pte0 pte : Pte)
    (fromUser : Bool) (hf : Forked s0 cr k.mm m) (hz : frameBase addr ≠ 0)
    (hu : addr < userSpan) (h0 : s0.pteAt cr addr = some pte0) (hp : pte0.present = true)
    (hcow : pte0.cow = false) (hr : k.mm.readPteRaw m (frameBase addr) = some pte) :
    ((writableAt (k.pageFaultHandler m addr true fromUser).2.mm m addr → pte0.writable = true) ↔
      pte0.writable = true ∨ pte.cow = false ∨
        (1 < k.mm.refcounts.refGet pte.addr ∧ k.mm.allocFrame = none)) ∧
    ((writableAt (k.mm.breakCowPage m addr).2 m addr → pte0.writable = true) ↔
      pte0.writable = true ∨ pte.cow = false ∨
        (1 < k.mm.refcounts.refGet pte.addr ∧ k.mm.allocFrame = none)) := by
  have hat : k.mm.pteAt m addr = some pte :=
    pteAt_of_read ((read_same (frame_base_same addr) _ m).trans hr)
  have hent : pte = pte0 ∨ pte = pte0.toCow := by
    rcases (forked_entry hf hu h0 hp).2 with he | he
    · rw [hat] at he
      exact .inl (some.inj he)
    · rw [hat] at he
      exact .inr (some.inj he)
  have hpp : pte.present = true := by
    rcases hent with rfl | rfl
    · exact hp
    · exact pte0.toCow_present.trans hp
  have hbase : frameBase addr < userEnd := by
    unfold frameBase userEnd userSpan at *
    omega
  -- both paths do the same: nothing without the mark, the copy with it
  have key : ∀ s' : Memory, s' = (if pte.cow then (k.mm.copyOrUnshare m (frameBase addr) pte).2
      else k.mm) → ((writableAt s' m addr → pte0.writable = true) ↔
        pte0.writable = true ∨ pte.cow = false ∨
          (1 < k.mm.refcounts.refGet pte.addr ∧ k.mm.allocFrame = none)) := by
    rintro s' rfl
    cases hc : pte.cow with
    | false =>
      have he : pte = pte0 := by
        rcases hent with he | rfl
        · exact he
        · rw [Pte.toCow_cow] at hc
          cases hc
      refine ⟨fun _ => .inr (.inl rfl),fun _ hw => ?_⟩
      unfold writableAt at hw
      rw [if_neg (by decide),hat,he] at hw
      exact some.inj hw
    | true =>
      rw [if_pos rfl]
      by_cases hx : 1 < k.mm.refcounts.refGet pte.addr ∧ k.mm.allocFrame = none
      · refine ⟨fun _ => .inr (.inr hx),fun _ hw => ?_⟩
        have he : pte = pte0.toCow := by
          rcases hent with rfl | he
          · rw [hcow] at hc
            cases hc
          · exact he
        unfold writableAt at hw
        rw [(copy_or_unshare_entry hr).1 hx,hat,he,map_some,Pte.toCow_writable] at hw
        cases hw
      · constructor
        · exact fun h => .inl (h (copy_or_unshare_writable hr hx))
        · rintro (h | h | h) _
          · exact h
          · cases h
          · exact absurd h hx
  refine ⟨key _ ?_,key _ ?_⟩
  · rw [fault_on_present hz hbase hr hpp,Bool.true_and]
    split <;> rfl
  · unfold Memory.breakCowPage
    dsimp only
    rw [hr]
    simp only [hpp,Bool.not_true,Bool.false_or]
    cases pte.cow <;> rfl

/-- One process with one page it may only read. -/
def readOnlyPage : List Op :=
  [.newUser,.registerVma 0x400000 0x600000 0x601000 1,.fault 0x400000 0x600000 false true]

theorem fork_mm (k : Kernel) (cr3 : Nat) : (k.fork cr3).mm = (k.mm.cloneCow cr3).2 := by
  unfold Kernel.fork
  split
  · rename_i hc
    rw [hc]
    rfl
  · rename_i hc
    rw [hc]
    unfold Kernel.vmaClone
    split <;> rfl

theorem sample_forked (h : ((sampleKernel.run ops).mm.space 0x400000).isSome = true ∧
      ((sampleKernel.run ops).mm.cloneCow 0x400000).1 = some 0x405000 ∧
      ((sampleKernel.run ops).mm.space 0x405000).isNone = true) :
    Forked (sampleKernel.run ops).mm 0x400000 ((sampleKernel.run ops).fork 0x400000).mm 0x405000 := by
  obtain ⟨hs,hc,hn⟩ := h
  obtain ⟨p4,hp⟩ := isSome_iff_exists.mp hs
  rw [fork_mm]
  exact .child _ _ 0x400000 _ (.start p4 hp) (Prod.ext hc rfl) (isNone_iff_eq_none.mp hn)

/-- A page writable before the fork. -/
theorem cow_fault_keeps_permission_child :
    writableAt (((sampleKernel.run onePage).fork 0x400000).pageFaultHandler
      0x405000 0x600000 true true).2.mm 0x405000 0x600000 ∧
      Pte.writable 0x8000000000401007#64 = true := by
  have hw : writableAt (((sampleKernel.run onePage).fork 0x400000).pageFaultHandler
      0x405000 0x600000 true true).2.mm 0x405000 0x600000 := by decide +kernel
  exact ⟨hw,(cow_fault_keeps_permission (sampleKernel.run onePage).mm
    ((sampleKernel.run onePage).fork 0x400000) 0x400000 0x405000 0x600000 0x8000000000401007#64
    0x8000000000401205#64 true
    (sample_forked (by decide +kernel))
    (by decide) (by decide) (by decide +kernel) (by decide) (by decide) (by decide +kernel)).1.mpr
    (.inl (by decide)) hw⟩

/-- A page the process could only read becomes writable, in parent and child,
by writing to it after a fork. -/
theorem cow_fault_grants_write : Forked (sampleKernel.run readOnlyPage).mm 0x400000
      ((sampleKernel.run readOnlyPage).fork 0x400000).mm 0x405000 ∧
    ¬ writableAt (sampleKernel.run readOnlyPage).mm 0x400000 0x600000 ∧
    writableAt (((sampleKernel.run readOnlyPage).fork 0x400000).pageFaultHandler
      0x405000 0x600000 true true).2.mm 0x405000 0x600000 ∧
    writableAt (((sampleKernel.run readOnlyPage).fork 0x400000).pageFaultHandler
      0x400000 0x600000 true true).2.mm 0x400000 0x600000 := by
  exact ⟨sample_forked (by decide +kernel),by decide +kernel⟩

end Miku.Mm
