import Miku.Proofs.Ownership

namespace Miku.Mm
open Option Memory

variable {s s' : Memory} {v : Nat} {p4 p4' : P4} {α : Type}

theorem P4.read_tables (h : p4.readPteRaw virt = some pte) :
    ∃ f3 p3 f2 p2 f1 p1, p4.entries (ptIndex virt 3) = some (f3,p3) ∧
      p3.entries (ptIndex virt 2) = some (f2,p2) ∧ p2.entries (ptIndex virt 1) = some (f1,p1) ∧
      p1.frame ≠ 0 ∧ p1.ptes (ptIndex virt 0) = pte := by
  unfold P4.readPteRaw at h
  split at h
  · cases h
  · rename_i f3 p3 h3
    split at h
    · cases h
    · rename_i f2 p2 h2
      split at h
      · cases h
      · rename_i f1 p1 h1
        split at h
        · cases h
        · rename_i hz
          cases h
          exact ⟨f3,p3,f2,p2,f1,p1,h3,h2,h1,hz,rfl⟩

theorem P4.write_frame (p4 : P4) (virt : Nat) (pte : Pte) :
    (p4.writePteRaw virt pte).frame = p4.frame := by
  unfold P4.writePteRaw
  repeat' split
  all_goals rfl

/-- One step of a table walk, `sub` being the rest of it. -/
def sees (sub : α → Nat → Option Pte) (level : Nat) (d : Dir α) (v : Nat) : Option Pte :=
  (d.entries (ptIndex v level)).bind fun l => sub l.2 v

/-- `walk_to_pte` refuses a last-level table in frame zero. -/
def P1.sees (p : P1) (v : Nat) : Option Pte :=
  if p.frame = 0 then none else some (p.ptes (ptIndex v 0))

def P2.sees : P2 → Nat → Option Pte := Mm.sees P1.sees 1
def P3.sees : P3 → Nat → Option Pte := Mm.sees P2.sees 2
def P4.sees : P4 → Nat → Option Pte := Mm.sees P3.sees 3

theorem P4.read_eq (p4 : P4) (v : Nat) : p4.readPteRaw v = p4.sees v := by
  unfold P4.readPteRaw P4.sees P3.sees P2.sees Mm.sees P1.sees
  split
  · simp [*]
  split
  · simp [*]
  split <;> simp [*]

theorem sees_set (sub : α → Nat → Option Pte) (level : Nat) (d : Dir α) (i : Nat) (flags : Pte)
    (t : α) (v : Nat) :
    sees sub level (d.set i (flags,t)) v = if ptIndex v level = i then sub t v else
      sees sub level d v := by
  unfold sees
  split
  · rename_i h
    rw [h,Dir.set_self]
    rfl
  · rename_i h
    rw [Dir.set_ne d h]

theorem P1.sees_set (p : P1) (i : Nat) (pte : Pte) (v : Nat) (hz : p.frame ≠ 0) :
    (p.set i pte).sees v = if ptIndex v 0 = i then some pte else p.sees v := by
  unfold P1.sees
  rw [P1.set_frame,if_neg hz,if_neg hz]
  split
  · rename_i h
    rw [h,P1.set_self]
  · rename_i h
    rw [P1.set_ne p h]

/-- The two addresses are translated by the same entry. -/
def SameEntry (v w : Nat) : Prop :=
  ptIndex v 3 = ptIndex w 3 ∧ ptIndex v 2 = ptIndex w 2 ∧ ptIndex v 1 = ptIndex w 1 ∧
    ptIndex v 0 = ptIndex w 0

instance (v w : Nat) : Decidable (SameEntry v w) := by
  unfold SameEntry
  infer_instance

theorem SameEntry.refl (v : Nat) : SameEntry v v := ⟨rfl,rfl,rfl,rfl⟩

theorem SameEntry.of_page (h : v / 4096 = w / 4096) : SameEntry v w := by
  refine ⟨?_,?_,?_,?_⟩
  all_goals
    unfold ptIndex
    simp only [Nat.reduceMul,Nat.reduceAdd,Nat.reducePow]
    omega

theorem sees_same (h : SameEntry v virt) : p4.sees v = p4.sees virt := by
  obtain ⟨h3,h2,h1,h0⟩ := h
  unfold P4.sees P3.sees P2.sees Mm.sees P1.sees
  simp [h3,h2,h1,h0]

theorem P4.read_write (h : p4.readPteRaw virt = some pte) (new : Pte) (v : Nat) :
    (p4.writePteRaw virt new).readPteRaw v =
      if SameEntry v virt then some new else p4.readPteRaw v := by
  rw [P4.read_eq,P4.read_eq p4 v]
  obtain ⟨f3,p3,f2,p2,f1,p1,h3,h2,h1,hz,-⟩ := P4.read_tables h
  unfold P4.writePteRaw
  simp only [h3,h2,h1,if_neg hz]
  -- level by level: outside the changed slot nothing moves, inside it the level below decides
  unfold P4.sees
  rw [sees_set]
  by_cases e3 : ptIndex v 3 = ptIndex virt 3
  · rw [if_pos e3]
    unfold P3.sees
    rw [sees_set]
    by_cases e2 : ptIndex v 2 = ptIndex virt 2
    · rw [if_pos e2]
      unfold P2.sees
      rw [sees_set]
      by_cases e1 : ptIndex v 1 = ptIndex virt 1
      · rw [if_pos e1,P1.sees_set _ _ _ _ hz]
        unfold Mm.sees
        rw [e3,h3,bind_some,e2,h2,bind_some,e1,h1,bind_some]
        by_cases e0 : ptIndex v 0 = ptIndex virt 0
        · rw [if_pos e0,if_pos ⟨e3,e2,e1,e0⟩]
        · rw [if_neg e0,if_neg (fun hs => e0 hs.2.2.2)]
      · rw [if_neg e1,if_neg (fun hs => e1 hs.2.2.1)]
        unfold Mm.sees
        rw [e3,h3,bind_some,e2,h2,bind_some]
    · rw [if_neg e2,if_neg (fun hs => e2 hs.2.1)]
      unfold Mm.sees
      rw [e3,h3,bind_some]
  · rw [if_neg e3,if_neg (fun hs => e3 hs.1)]

theorem find_replace :
    (replaceSpace p4 ps).find? (fun p => p.frame == cr) =
      if p4.frame = cr then (ps.find? (fun p => p.frame == cr)).map (fun _ => p4)
      else ps.find? (fun p => p.frame == cr) := by
  induction ps with
  | nil =>
    split <;> rfl
  | cons p ps ih =>
    unfold replaceSpace
    by_cases hp : p.frame = p4.frame
    · rw [if_pos (beq_iff_eq.mpr hp),List.find?_cons,List.find?_cons,hp]
      by_cases hc : p4.frame = cr
      · rw [beq_iff_eq.mpr hc,if_pos hc]
        rfl
      · rw [beq_eq_false_iff_ne.mpr hc,if_neg hc]
    · rw [if_neg (by simpa using hp),List.find?_cons,List.find?_cons,ih]
      by_cases hc : p.frame = cr
      · have hne : ¬ p4.frame = cr := fun h => hp (hc.trans h.symm)
        rw [beq_iff_eq.mpr hc,if_neg hne,if_neg hne]
      · rw [beq_eq_false_iff_ne.mpr hc]

theorem space_frame (h : s.space cr3 = some p4) : p4.frame = cr3 := by
  have := List.find?_some h
  simpa using this

theorem space_set (h : s.space cr3 = some p4) (hf : p4'.frame = p4.frame) (cr : Nat) :
    (s.setSpace p4').space cr = if cr = cr3 then some p4' else s.space cr := by
  unfold space setSpace
  rw [find_replace,hf,space_frame h]
  by_cases hc : cr = cr3
  · subst hc
    rw [if_pos rfl,if_pos rfl]
    unfold space at h
    rw [h]
    rfl
  · rw [if_neg (Ne.symm hc),if_neg hc]

theorem read_of_spaces (h : s'.spaces = s.spaces) (cr v : Nat) :
    s'.readPteRaw cr v = s.readPteRaw cr v := by
  unfold Memory.readPteRaw space
  rw [h]

theorem read_same (h : SameEntry v virt) (s : Memory) (cr : Nat) :
    s.readPteRaw cr v = s.readPteRaw cr virt := by
  unfold Memory.readPteRaw
  exact congrArg _ (funext fun p4 => by rw [P4.read_eq,P4.read_eq,sees_same h])

theorem read_write (h : s.readPteRaw cr3 virt = some pte) (new : Pte) (cr v : Nat) :
    (s.writePteRaw cr3 virt new).readPteRaw cr v =
      if cr = cr3 ∧ SameEntry v virt then some new else s.readPteRaw cr v := by
  obtain ⟨p4,hp,hr⟩ := bind_eq_some_iff.mp h
  unfold Memory.writePteRaw
  rw [hp]
  unfold Memory.readPteRaw
  dsimp only
  rw [space_set hp (P4.write_frame p4 virt new)]
  by_cases hc : cr = cr3
  · subst hc
    rw [if_pos rfl,bind_some,P4.read_write hr,hp,bind_some]
    by_cases he : SameEntry v virt
    · rw [if_pos he,if_pos ⟨rfl,he⟩]
    · rw [if_neg he,if_neg (fun h => he h.2)]
  · rw [if_neg hc,if_neg (fun h => hc h.1)]

theorem read_write_absent (h : s.readPteRaw cr3 virt = none) :
    (s.writePteRaw cr3 virt new).readPteRaw cr v = s.readPteRaw cr v := by
  unfold Memory.writePteRaw
  split
  · rfl
  rename_i p4 hp
  unfold Memory.readPteRaw at h ⊢
  rw [hp,bind_some] at h
  have hw : p4.writePteRaw virt new = p4 := by
    unfold P4.readPteRaw at h
    unfold P4.writePteRaw
    repeat' split
    all_goals first
      | rfl
      | simp_all
  rw [hw,space_set hp rfl]
  split
  · rename_i hc
    rw [hc,hp]
  · rfl

theorem read_write_isSome (new : Pte) (cr v : Nat) :
    ((s.writePteRaw cr3 virt new).readPteRaw cr v).isSome = (s.readPteRaw cr v).isSome := by
  cases hr : s.readPteRaw cr3 virt with
  | none => rw [read_write_absent hr]
  | some pte =>
    rw [read_write hr]
    split
    · rename_i hc
      rw [hc.1,read_same hc.2,hr]
      rfl
    · rfl

theorem map_in_existing (h : p4.readPteRaw virt = some pte) :
    s.mapIn p4 virt new = (true,p4.writePteRaw virt new,s) := by
  obtain ⟨f3,p3,f2,p2,f1,p1,h3,h2,h1,hz,-⟩ := P4.read_tables h
  unfold mapIn P4.writePteRaw
  simp [h3,h2,h1,if_neg hz,Memory.getOrCreate]

theorem map_page_existing (h : s.readPteRaw cr3 virt = some pte) (phys : Nat) (flags : Pte) :
    s.mapPage cr3 virt phys flags =
      (true,(s.writePteRaw cr3 virt (Pte.setAddr phys (flags ||| ptePresent))).track phys cr3 virt
        (decide (virt ≥ 0xFFFF800000000000) || decide (phys < 0x400000))) := by
  obtain ⟨p4,hp,hr⟩ := bind_eq_some_iff.mp h
  unfold Memory.mapPage Memory.writePteRaw
  rw [hp]
  dsimp only
  rw [map_in_existing hr]
  rfl

/-- What a walk that may only add tables leaves alone. -/
structure Grown (s s' : Memory) : Prop where
  refcounts : s'.refcounts = s.refcounts
  spaces : s'.spaces = s.spaces

theorem alloc_grown (h : s.allocFrame = some (phys,s')) : Grown s s' := by
  obtain ⟨pmm,-,rfl⟩ := alloc_frame_eq h
  exact ⟨rfl,rfl⟩

theorem Grown.trans (h : Grown s1 s2) (g : Grown s2 s3) : Grown s1 s3 :=
  ⟨g.refcounts.trans h.refcounts,g.spaces.trans h.spaces⟩

variable {mk : Nat → α}

theorem get_or_create_grown (hg : s.getOrCreate mk l = some (r,s')) : Grown s s' := by
  cases l with
  | some l =>
    cases hg
    exact ⟨rfl,rfl⟩
  | none =>
    obtain ⟨⟨frame,s1⟩,ha,he⟩ := map_eq_some_iff.mp hg
    simp only [Prod.mk.injEq] at he
    obtain ⟨-,rfl⟩ := he
    exact ⟨(alloc_grown ha).refcounts,(alloc_grown ha).spaces⟩

theorem map_in_grown (hm : s.mapIn p4 virt new = (ok,p4',s')) :
    Grown s s' ∧ p4'.frame = p4.frame := by
  unfold mapIn at hm
  dsimp only at hm
  split at hm
  · cases hm
    exact ⟨⟨rfl,rfl⟩,rfl⟩
  rename_i hg3
  split at hm
  · cases hm
    exact ⟨get_or_create_grown hg3,rfl⟩
  rename_i hg2
  split at hm
  · cases hm
    exact ⟨(get_or_create_grown hg3).trans (get_or_create_grown hg2),rfl⟩
  rename_i hg1
  cases hm
  exact ⟨((get_or_create_grown hg3).trans (get_or_create_grown hg2)).trans
    (get_or_create_grown hg1),rfl⟩

variable {sub : α → Nat → Option Pte}

theorem get_or_create_reads (hmk : ∀ frame v pte, sub (mk frame) v = some pte → pte = 0#64)
    (hg : s.getOrCreate mk l = some ((flags,t),s'))
    (hs : sub t v = some pte) : pte = 0#64 ∨ (l.bind fun l => sub l.2 v) = some pte := by
  cases l with
  | some l =>
    cases hg
    exact .inr hs
  | none =>
    obtain ⟨⟨frame,s1⟩,-,he⟩ := map_eq_some_iff.mp hg
    simp only [Prod.mk.injEq] at he
    obtain ⟨⟨-,rfl⟩,-⟩ := he
    exact .inl (hmk frame v pte hs)

theorem P1.empty_sees (frame v : Nat) (pte : Pte) (h : (P1.empty frame).sees v = some pte) :
    pte = 0#64 := by
  unfold P1.sees P1.empty at h
  split at h
  · cases h
  · cases h
    rfl

theorem Dir.empty_sees (sub : α → Nat → Option Pte) (level frame v : Nat) (pte : Pte)
    (h : sees sub level (Dir.empty α frame) v = some pte) : pte = 0#64 := by
  cases h

/-- What can be read in a directory after one of its links was set: either the
new subtree shows it, or it was there before. -/
theorem sees_set_cases {d : Dir α} (h : sees sub level (d.set i (flags,t)) v = some pte)
    (ht : sub t v = some pte → Q ∨ ((d.entries i).bind fun l => sub l.2 v) = some pte) :
    Q ∨ sees sub level d v = some pte := by
  rw [sees_set] at h
  split at h
  · rename_i hi
    unfold sees
    rw [hi]
    exact ht h
  · exact .inr h

theorem P1.sees_set_cases {p : P1} (h : (p.set i new).sees v = some pte) :
    pte = new ∨ p.sees v = some pte := by
  by_cases hz : p.frame = 0
  · unfold P1.sees at h
    rw [P1.set_frame,if_pos hz] at h
    cases h
  · rw [P1.sees_set _ _ _ _ hz] at h
    split at h
    · cases h
      exact .inl rfl
    · exact .inr h

/-- Whatever can be read after the walk was there before, is an empty entry of
a new table, or is the entry just written. -/
theorem map_in_reads (hm : s.mapIn p4 virt new = (ok,p4',s')) (h : p4'.readPteRaw v = some pte) :
    (pte = new ∨ pte = 0#64) ∨ p4.readPteRaw v = some pte := by
  rw [P4.read_eq] at h ⊢
  unfold mapIn at hm
  dsimp only at hm
  split at hm
  · cases hm
    exact .inr h
  rename_i f3 p3 s1 hg3
  have g3 : ∀ pte, P3.sees p3 v = some pte → (pte = new ∨ pte = 0#64) ∨
      ((p4.entries (ptIndex virt 3)).bind fun l => P3.sees l.2 v) = some pte := fun pte hs =>
    (get_or_create_reads (Dir.empty_sees P2.sees 2) hg3 hs).imp_left .inr
  split at hm
  · cases hm
    exact sees_set_cases h (g3 pte)
  rename_i f2 p2 s2 hg2
  have g2 : ∀ pte, P2.sees p2 v = some pte → (pte = new ∨ pte = 0#64) ∨
      ((p3.entries (ptIndex virt 2)).bind fun l => P2.sees l.2 v) = some pte := fun pte hs =>
    (get_or_create_reads (Dir.empty_sees P1.sees 1) hg2 hs).imp_left .inr
  split at hm
  · cases hm
    exact sees_set_cases h fun h2 =>
      (sees_set_cases h2 (g2 pte)).elim .inl (g3 pte)
  rename_i f1 p1 s3 hg1
  have g1 : ∀ pte, p1.sees v = some pte → (pte = new ∨ pte = 0#64) ∨
      ((p2.entries (ptIndex virt 1)).bind fun l => l.2.sees v) = some pte := fun pte hs =>
    (get_or_create_reads P1.empty_sees hg1 hs).imp_left .inr
  cases hm
  exact sees_set_cases h fun h3 =>
    (sees_set_cases h3 fun h2 =>
      (sees_set_cases h2 fun h1 =>
        (P1.sees_set_cases h1).elim (fun he => .inl (.inl he)) (g1 pte)).elim .inl (g2 pte)).elim
      .inl (g3 pte)

theorem map_in_reads_self (hm : s.mapIn p4 virt new = (true,p4',s'))
    (h : p4'.readPteRaw virt = some pte) : pte = new := by
  rw [P4.read_eq] at h
  unfold mapIn at hm
  dsimp only at hm
  split at hm
  · cases hm
  split at hm
  · cases hm
  split at hm
  · cases hm
  rename_i f1 p1 s3 hg1
  cases hm
  unfold P4.sees at h
  rw [sees_set,if_pos rfl] at h
  unfold P3.sees at h
  rw [sees_set,if_pos rfl] at h
  unfold P2.sees at h
  rw [sees_set,if_pos rfl] at h
  by_cases hz : p1.frame = 0
  · unfold P1.sees at h
    rw [P1.set_frame,if_pos hz] at h
    cases h
  · rw [P1.sees_set _ _ _ _ hz,if_pos rfl] at h
    cases h
    rfl

end Miku.Mm
