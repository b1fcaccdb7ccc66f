import Miku.Lib.Run
import Miku.Sched.Processes

namespace Miku.Sched.Table
open Lib Function Option

variable {s t : Table} {c pid k : Nat}

/-- A dead child waits for its parent with its code. -/
def Collectable (s : Table) (c q k : Nat) : Prop :=
  ∃ p, s.procs c = some p ∧ p.state = .dead ∧ p.collected = false ∧ p.ppid = q ∧ p.exitCode = k

/-- What `wait4` has returned about `c`. -/
def returns (s : Table) (c : Nat) : List (Nat × Nat × Nat) := s.returned.filter fun r => r.2.1 = c

/-- Of every child that died while its parent lived, and whose parent still lives, the parent
has got the code once, or it can get it. No child is returned twice. -/
def Delivers (s : Table) : Prop :=
  (∀ c q k, s.ended c = some (q,k) → s.alive q →
    s.returns c = [] ∧ s.Collectable c q k ∨ s.returns c = [(q,c,k)]) ∧
  ∀ c, (s.returns c).length ≤ 1

/-- A dead process that its parent, which lives, has not collected. -/
def Owed (s : Table) (c : Nat) : Prop :=
  ∃ p, s.procs c = some p ∧ p.state = .dead ∧ p.collected = false ∧ s.alive p.ppid

/-- No process is made while the sweep would find a child still owed to its parent. No dead
process is killed again, and none that the index has no room for. No process that was killed
while it ran goes to sleep or blocks before it is switched away from. -/
def Careful (s : Table) : TableEvent → Prop
  | .fork _ | .spawn _ => ∀ c, s.reapable c → ¬s.Owed c
  | .exit pid _ | .kill pid _ => ∀ p, s.procs pid = some p → p.state ≠ .dead ∧ pid < maxProcs
  | .suspend pid _ => ∀ p, s.procs pid = some p → p.state ≠ .dead
  | _ => True

/-- The numbers are below the next one, and no dead process is on a queue. -/
structure Tidy (s : Table) : Prop where
  bound : ∀ c, s.nextPid ≤ c → s.procs c = none
  fresh : ∀ c p, s.procs c = some p → p.state ≠ .dead → p.collected = false
  off : ∀ c p, s.procs c = some p → p.state = .dead → p.onRq = false

structure Inv (s : Table) : Prop extends Tidy s where
  gone : ∀ c, s.returns c ≠ [] → s.procs c = none ∧ c < s.nextPid
  dead : ∀ c q k, s.ended c = some (q,k) → s.alive c = false ∧ c < s.nextPid ∧ q < s.nextPid
  delivers : s.Delivers

theorem alive_iff : s.alive c ↔ ∃ p, s.procs c = some p ∧ p.state ≠ .dead := by
  rw [alive]
  cases s.procs c <;> simp

variable {p : Process}

theorem Inv.lt_of_some (h : Inv s) (hp : s.procs c = some p) : c < s.nextPid := by
  by_contra hc
  rw [h.bound c (by omega)] at hp
  cases hp

/-- Processes are changed, but not those owed to a parent, and none comes back to life. -/
structure Mild (s t : Table) : Prop where
  next : s.nextPid ≤ t.nextPid
  ended : t.ended = s.ended
  returned : t.returned = s.returned
  bound : ∀ c, t.nextPid ≤ c → s.procs c = none → t.procs c = none
  old : ∀ c, c < s.nextPid → s.procs c = none → t.procs c = none
  fresh : ∀ c p, t.procs c = some p → p.state ≠ .dead →
    p.collected = false ∨ ∃ p', s.procs c = some p' ∧ p'.state ≠ .dead ∧ p.collected = p'.collected
  off : ∀ c p, t.procs c = some p → p.state = .dead →
    ∃ p', s.procs c = some p' ∧ p'.state = .dead ∧ p.onRq = p'.onRq
  alive : ∀ c, c < s.nextPid → t.alive c → s.alive c
  kept : ∀ c q k, s.Collectable c q k → t.alive q → t.Collectable c q k

theorem Inv.mild (h : Inv s) (hm : Mild s t) : Inv t := by
  have hr : ∀ c, t.returns c = s.returns c := fun c => by rw [returns,returns,hm.returned]
  refine ⟨⟨fun c hc => ?_,fun c p hp hd => ?_,fun c p hp hd => ?_⟩,fun c hc => ?_,
    fun c q k hc => ?_,fun c q k hc hq => ?_,fun c => ?_⟩
  · exact hm.bound c hc (h.bound c (Nat.le_trans hm.next hc))
  · rcases hm.fresh c p hp hd with hf | ⟨p',hp',hd',he⟩
    · exact hf
    · rw [he]
      exact h.fresh c p' hp' hd'
  · obtain ⟨p',hp',hd',he⟩ := hm.off c p hp hd
    rw [he]
    exact h.off c p' hp' hd'
  · rw [hr] at hc
    obtain ⟨hn,hlt⟩ := h.gone c hc
    exact ⟨hm.old c hlt hn,Nat.lt_of_lt_of_le hlt hm.next⟩
  · rw [hm.ended] at hc
    obtain ⟨ha,hlt,hq⟩ := h.dead c q k hc
    refine ⟨?_,Nat.lt_of_lt_of_le hlt hm.next,Nat.lt_of_lt_of_le hq hm.next⟩
    by_contra hal
    rw [hm.alive c hlt (by simpa using hal)] at ha
    cases ha
  · rw [hm.ended] at hc
    rw [hr]
    rcases h.delivers.1 c q k hc (hm.alive q (h.dead c q k hc).2.2 hq) with ⟨hn,hcol⟩ | he
    · exact .inl ⟨hn,hm.kept c q k hcol hq⟩
    · exact .inr he
  · rw [hr]
    exact h.delivers.2 c

section

variable {f : Process → Process} (hd : ∀ p, s.procs pid = some p → p.state = .dead → f p = p)
  (hl : ∀ p, p.state ≠ .dead → (f p).state ≠ .dead ∧ (f p).collected = p.collected)
include hd hl

theorem mild_modify : Mild s (s.modify pid f) := by
  -- a process that was dead is as it was, and one that lived lives
  have hp : ∀ c p, (s.modify pid f).procs c = some p → ∃ p', s.procs c = some p' ∧
      (p = p' ∨ p'.state ≠ .dead ∧ p.state ≠ .dead ∧ p.collected = p'.collected) := by
    intro c p hc
    rw [modify] at hc
    by_cases hcp : c = pid
    · subst hcp
      simp only [update_self,map_eq_some_iff] at hc
      obtain ⟨p',hp',rfl⟩ := hc
      by_cases hdead : p'.state = .dead
      · exact ⟨p',hp',.inl (hd p' hp' hdead)⟩
      · exact ⟨p',hp',.inr ⟨hdead,hl p' hdead⟩⟩
    · simp only [update_of_ne hcp] at hc
      exact ⟨p,hc,.inl rfl⟩
  have hnone : ∀ c, s.procs c = none → (s.modify pid f).procs c = none := by
    intro c hc
    rw [modify]
    by_cases hcp : c = pid
    · subst hcp
      simp [hc]
    · simp [update_of_ne hcp,hc]
  refine ⟨.refl,rfl,rfl,fun c _ hc => hnone c hc,fun c _ hc => hnone c hc,fun c p hc hpd => ?_,
    fun c p hc hpd => ?_,fun c _ ha => ?_,fun c q k hc _ => ?_⟩
  · obtain ⟨p',hp',rfl | ⟨hne,-,hcol⟩⟩ := hp c p hc
    · exact .inr ⟨p,hp',hpd,rfl⟩
    · exact .inr ⟨p',hp',hne,hcol⟩
  · obtain ⟨p',hp',rfl | ⟨-,hne,-⟩⟩ := hp c p hc
    · exact ⟨p,hp',hpd,rfl⟩
    · exact absurd hpd hne
  · obtain ⟨p,hpc,hpd⟩ := alive_iff.mp ha
    obtain ⟨p',hp',rfl | ⟨hne,-⟩⟩ := hp c p hpc
    · exact alive_iff.mpr ⟨p,hp',hpd⟩
    · exact alive_iff.mpr ⟨p',hp',hne⟩
  · obtain ⟨p,hpc,hdead,hrest⟩ := hc
    refine ⟨p,?_,hdead,hrest⟩
    rw [modify]
    by_cases hcp : c = pid
    · subst hcp
      simp [hpc,hd p hpc hdead]
    · simp [update_of_ne hcp,hpc]

omit hd hl in
theorem Mild.refl : Mild s s :=
  ⟨.refl,rfl,rfl,fun _ _ h => h,fun _ _ h => h,fun _ p hp hd => .inr ⟨p,hp,hd,rfl⟩,
    fun _ p hp hd => ⟨p,hp,hd,rfl⟩,fun _ _ h => h,fun _ _ _ h _ => h⟩

theorem mild_touch : Mild s (s.touch pid f) := by
  rw [touch]
  split
  · exact mild_modify hd hl
  · exact .refl

end

theorem mild_wakeup : Mild s (s.wakeup pid) := by
  refine mild_touch (fun p _ hd => by simp [Process.wake,hd]) fun p hd => ?_
  rw [Process.wake]
  split
  · exact ⟨nofun,rfl⟩
  · exact ⟨hd,rfl⟩

theorem mild_reparent (hd : s.alive pid = false) : Mild s (s.reparent pid) := by
  rw [reparent]
  split
  · have halive : ∀ c, Table.alive { s with procs := fun c => (s.procs c).map fun p =>
        if p.ppid = pid then { p with ppid := 1 } else p } c = s.alive c := by
      intro c
      simp only [alive]
      cases s.procs c with
      | none => rfl
      | some p =>
        simp only [map_some,any_some]
        split <;> rfl
    refine ⟨.refl,rfl,rfl,fun c _ hc => by simp [hc],fun c _ hc => by simp [hc],
      fun c p hc hpd => ?_,fun c p hc hpd => ?_,fun c _ ha => (halive c) ▸ ha,fun c q k hc hq => ?_⟩
    · obtain ⟨p',hp',rfl⟩ := map_eq_some_iff.mp hc
      refine .inr ⟨p',hp',?_,?_⟩
      · split at hpd <;> exact hpd
      · split <;> rfl
    · obtain ⟨p',hp',rfl⟩ := map_eq_some_iff.mp hc
      refine ⟨p',hp',?_,?_⟩
      · split at hpd <;> exact hpd
      · split <;> rfl
    · obtain ⟨p,hp,hdead,hcol,hpp,hcode⟩ := hc
      refine ⟨p,?_,hdead,hcol,hpp,hcode⟩
      have hne : p.ppid ≠ pid := by
        rintro rfl
        rw [halive,← hpp,hd] at hq
        cases hq
      simp [hp,hne]
  · exact .refl

/-- The sweep in front of a new process, where it finds none owed. -/
theorem mild_reapDead (hown : ∀ c, s.reapable c → ¬s.Owed c) : Mild s s.reapDead := by
  have hsome : ∀ c p, s.reapDead.procs c = some p → s.procs c = some p := by
    intro c p hc
    rw [reapDead] at hc
    dsimp only at hc
    split at hc
    · cases hc
    · exact hc
  have hnone : ∀ c, s.procs c = none → s.reapDead.procs c = none := by
    intro c hc
    simp [reapDead,hc]
  have halive : ∀ c, s.reapDead.alive c → s.alive c := by
    intro c hc
    obtain ⟨p,hp,hd⟩ := alive_iff.mp hc
    exact alive_iff.mpr ⟨p,hsome c p hp,hd⟩
  refine ⟨.refl,rfl,rfl,fun c _ => hnone c,fun c _ => hnone c,
    fun c p hp hd => .inr ⟨p,hsome c p hp,hd,rfl⟩,fun c p hp hd => ⟨p,hsome c p hp,hd,rfl⟩,
    fun c _ => halive c,fun c q k hc hq => ?_⟩
  obtain ⟨p,hp,hd,hcol,hpp,hcode⟩ := hc
  have hkeep : ¬s.reapable c := fun hr => hown c hr ⟨p,hp,hd,hcol,hpp ▸ halive q hq⟩
  exact ⟨p,by simp [reapDead,hkeep,hp],hd,hcol,hpp,hcode⟩

theorem mild_birth (hb : ∀ c, s.nextPid ≤ c → s.procs c = none) : Mild s (s.birth q) := by
  unfold birth
  have hor : ∀ c p', update s.procs s.nextPid (some (.born q)) c = some p' →
      p' = .born q ∨ s.procs c = some p' := by
    intro c p' hc
    by_cases hne : c = s.nextPid
    · subst hne
      simp only [update_self,some.injEq] at hc
      exact .inl hc.symm
    · rw [update_of_ne hne] at hc
      exact .inr hc
  refine ⟨Nat.le_succ _,rfl,rfl,fun c hc hn => ?_,fun c hc hn => ?_,fun c p' hc hd => ?_,
    fun c p' hc hd => ?_,fun c hc ha => ?_,fun c q k hc _ => ?_⟩
  · have hne : c ≠ s.nextPid := by
      dsimp only at hc
      omega
    simpa [update_of_ne hne] using hn
  · simpa [update_of_ne (Nat.ne_of_lt hc)] using hn
  · rcases hor c p' hc with rfl | hc
    · exact .inl rfl
    · exact .inr ⟨p',hc,hd,rfl⟩
  · rcases hor c p' hc with rfl | hc
    · cases hd
    · exact ⟨p',hc,hd,rfl⟩
  · simpa [alive,update_of_ne (Nat.ne_of_lt hc)] using ha
  · obtain ⟨p',hp',hrest⟩ := hc
    have hne : c ≠ s.nextPid := by
      rintro rfl
      rw [hb _ .refl] at hp'
      cases hp'
    exact ⟨p',by simpa [update_of_ne hne] using hp',hrest⟩

theorem Inv.addProcess (h : Inv s) (hown : ∀ c, s.reapable c → ¬s.Owed c) : Inv (s.addProcess q) := by
  have hr : Inv s.reapDead := h.mild (mild_reapDead hown)
  exact hr.mild (mild_birth hr.bound)

/-- What `kill_with_code` does to the process itself. -/
def die (s : Table) (pid code : Nat) : Table :=
  (s.noteEnd pid code).modify pid (Process.die code)

@[simp] theorem noteEnd_fixed : (s.noteEnd pid k).procs = s.procs ∧
    (s.noteEnd pid k).nextPid = s.nextPid ∧ (s.noteEnd pid k).returned = s.returned := by
  rw [noteEnd]
  split
  · split <;> exact ⟨rfl,rfl,rfl⟩
  · exact ⟨rfl,rfl,rfl⟩

theorem alive_die : (s.die pid k).alive pid = false := by
  simp only [die,modify,alive,noteEnd_fixed,update_self]
  cases s.procs pid <;> simp [Process.die]

theorem die_of_ne (hc : c ≠ pid) : (s.die pid k).procs c = s.procs c ∧ (s.die pid k).ended c = s.ended c := by
  simp only [die,noteEnd,modify]
  split
  · split <;> simp [update_of_ne hc]
  · simp [update_of_ne hc]

theorem die_fixed : (s.die pid k).nextPid = s.nextPid ∧ (s.die pid k).returned = s.returned :=
  noteEnd_fixed.2

theorem die_self (hp : s.procs pid = some p) :
    (s.die pid k).procs pid = some (p.die k) := by
  simp [die,modify,hp]

/-- A process that lived is noted under its parent, if the parent lives. -/
theorem ended_die (hp : s.procs pid = some p) (hn : s.ended pid = none)
    (he : (s.die pid k).ended pid = some r) : r = (p.ppid,k) ∧ s.alive p.ppid := by
  simp only [die,noteEnd,modify,hp] at he
  split at he
  · next hc =>
    simp only [update_self,some.injEq] at he
    exact ⟨he.symm,hc.2⟩
  · rw [hn] at he
    cases he

theorem Inv.die (h : Inv s) (hp : s.procs pid = some p) (hlive : p.state ≠ .dead) :
    Inv (s.die pid k) := by
  have hnone : s.ended pid = none := by
    cases he : s.ended pid with
    | none => rfl
    | some r =>
      have := (h.dead pid r.1 r.2 he).1
      rw [alive_iff.mpr ⟨p,hp,hlive⟩] at this
      cases this
  have hret : ∀ c, (s.die pid k).returns c = s.returns c := fun c => by
    rw [returns,returns,die_fixed.2]
  have hquiet : s.returns pid = [] := by
    by_contra hc
    rw [(h.gone pid hc).1] at hp
    cases hp
  have halive : ∀ c, (s.die pid k).alive c → c ≠ pid ∧ s.alive c := by
    intro c hc
    have hne : c ≠ pid := by
      rintro rfl
      rw [alive_die] at hc
      cases hc
    refine ⟨hne,?_⟩
    rwa [alive,(die_of_ne hne).1] at hc
  refine ⟨⟨fun c hc => ?_,fun c p' hc hd => ?_,fun c p' hc hd => ?_⟩,fun c hc => ?_,
    fun c q k' he => ?_,fun c q k' he hq => ?_,fun c => ?_⟩
  · rw [die_fixed.1] at hc
    have hne : c ≠ pid := by
      have := h.lt_of_some hp
      omega
    rw [(die_of_ne hne).1]
    exact h.bound c hc
  · by_cases hne : c = pid
    · subst hne
      rw [die_self hp,some.injEq] at hc
      subst hc
      exact absurd rfl hd
    · rw [(die_of_ne hne).1] at hc
      exact h.fresh c p' hc hd
  · by_cases hne : c = pid
    · subst hne
      rw [die_self hp,some.injEq] at hc
      exact hc ▸ rfl
    · rw [(die_of_ne hne).1] at hc
      exact h.off c p' hc hd
  · rw [hret] at hc
    have hne : c ≠ pid := by
      rintro rfl
      exact hc hquiet
    rw [die_fixed.1,(die_of_ne hne).1]
    exact h.gone c hc
  · rw [die_fixed.1]
    by_cases hne : c = pid
    · subst hne
      obtain ⟨hr,hal⟩ := ended_die hp hnone he
      obtain ⟨pp,hpp,-⟩ := alive_iff.mp hal
      obtain ⟨rfl,rfl⟩ := Prod.mk.inj hr
      exact ⟨alive_die,h.lt_of_some hp,h.lt_of_some hpp⟩
    · rw [(die_of_ne hne).2] at he
      rw [alive,(die_of_ne hne).1]
      exact h.dead c q k' he
  · rw [hret]
    by_cases hne : c = pid
    · subst hne
      obtain ⟨rfl,rfl⟩ := Prod.mk.inj (ended_die hp hnone he).1
      exact .inl ⟨hquiet,_,die_self hp,rfl,h.fresh c p hp hlive,rfl,rfl⟩
    · rw [(die_of_ne hne).2] at he
      rw [Collectable,(die_of_ne hne).1]
      exact h.delivers.1 c q k' he (halive q hq).2
  · rw [hret]
    exact h.delivers.2 c

theorem Inv.killWithCode (h : Inv s)
    (hlive : ∀ p, s.procs pid = some p → p.state ≠ .dead ∧ pid < maxProcs) : Inv (s.killWithCode pid k) := by
  cases hp : s.procs pid with
  | none =>
    have hd : s.alive pid = false := by simp [alive,hp]
    simp only [Table.killWithCode,indexed,hp,isSome_none,Bool.and_false,Bool.false_eq_true,if_false]
    exact h.mild (mild_reparent hd)
  | some p =>
    have hdie : Inv ((s.die pid k).reparent pid) :=
      (h.die hp (hlive p hp).1).mild (mild_reparent alive_die)
    simp only [Table.killWithCode,indexed,hp,decide_eq_true (hlive p hp).2,isSome_some,Bool.and_self,
      if_true]
    split
    · exact hdie
    · exact hdie.mild mild_wakeup

theorem findZombieChild_spec (hf : s.findZombieChild q target = some c) :
    ∃ p, s.procs c = some p ∧ p.ppid = q ∧ p.state = .dead ∧ p.collected = false := by
  have hz := List.find?_some hf
  rw [isZombie] at hz
  cases hp : s.procs c with
  | none =>
    rw [hp] at hz
    cases hz
  | some p =>
    rw [hp] at hz
    simp only [any_some,Bool.and_eq_true,decide_eq_true_eq,Bool.not_eq_true'] at hz
    exact ⟨p,rfl,hz.1.1.1,hz.1.2,hz.2⟩

theorem wait4_fixed (hf : s.findZombieChild q target = some c) : s.wait4 q target = { s with
        procs := update s.procs c none
        returned := s.returned ++ [(q,c,(s.procs c).elim 0 Process.exitCode)] } := by
  simp [wait4,hf,reapZombie,modify]

theorem Inv.wait4 (h : Inv s) (target : Option Nat) : Inv (s.wait4 q target) := by
  cases hf : s.findZombieChild q target with
  | none =>
    rw [Table.wait4,hf]
    exact h
  | some c =>
    obtain ⟨p,hp,hpp,hd,hcol⟩ := findZombieChild_spec hf
    rw [wait4_fixed hf,hp]
    have hquiet : s.returns c = [] := by
      by_contra hc
      rw [(h.gone c hc).1] at hp
      cases hp
    have hother : ∀ c', c' ≠ c → (s.returned ++ [(q,c,p.exitCode)]).filter (fun r => r.2.1 = c') =
        s.returns c' := by
      intro c' hne
      simp [returns,hne.symm]
    have hself : (s.returned ++ [(q,c,p.exitCode)]).filter (fun r => r.2.1 = c) = [(q,c,p.exitCode)] := by
      rw [returns] at hquiet
      rw [List.filter_append,hquiet]
      simp
    have hsome : ∀ c' p', update s.procs c none c' = some p' → c' ≠ c ∧ s.procs c' = some p' := by
      intro c' p' hc'
      by_cases hne : c' = c
      · subst hne
        simp at hc'
      · rw [update_of_ne hne] at hc'
        exact ⟨hne,hc'⟩
    have halive : ∀ c', ((update s.procs c none) c').any (fun p => p.state ≠ .dead) → s.alive c' := by
      intro c' ha
      by_cases hne : c' = c
      · subst hne
        simp at ha
      · rwa [update_of_ne hne] at ha
    refine ⟨⟨fun c' hc' => ?_,fun c' p' hc' => ?_,fun c' p' hc' => ?_⟩,fun c' hc' => ?_,
      fun c' q' k' he => ?_,fun c' q' k' he hq => ?_,fun c' => ?_⟩
    · have hne : c' ≠ c := by
        have := h.lt_of_some hp
        dsimp only at hc'
        omega
      exact (update_of_ne hne ..).trans (h.bound c' hc')
    · exact h.fresh c' p' (hsome c' p' hc').2
    · exact h.off c' p' (hsome c' p' hc').2
    · by_cases hne : c' = c
      · subst hne
        exact ⟨update_self ..,h.lt_of_some hp⟩
      · have hr : s.returns c' ≠ [] := (hother c' hne) ▸ hc'
        exact ⟨(update_of_ne hne ..).trans (h.gone c' hr).1,(h.gone c' hr).2⟩
    · obtain ⟨ha,hlt⟩ := h.dead c' q' k' he
      refine ⟨?_,hlt⟩
      by_contra hal
      rw [halive c' (Bool.not_eq_false _ ▸ hal)] at ha
      cases ha
    · have hlaw := h.delivers.1 c' q' k' he (halive q' hq)
      by_cases hne : c' = c
      · subst hne
        rcases hlaw with ⟨-,p',hp',-,-,hq',hk'⟩ | hr
        · rw [hp,some.injEq] at hp'
          subst hp'
          exact .inr (hself.trans (by rw [← hpp,hq',hk']))
        · rw [hquiet] at hr
          cases hr
      · rcases hlaw with ⟨hr,p',hp',hrest⟩ | hr
        · exact .inl ⟨(hother c' hne).trans hr,p',(update_of_ne hne ..).trans hp',hrest⟩
        · exact .inr ((hother c' hne).trans hr)
    · by_cases hne : c' = c
      · subst hne
        exact Nat.le_of_eq (congrArg List.length hself)
      · exact Nat.le_trans (Nat.le_of_eq (congrArg List.length (hother c' hne))) (h.delivers.2 c')

theorem step_inv (h : Inv s) (hc : s.Careful e) : Inv (s.step e) := by
  cases e with
  | fork parent => exact h.addProcess hc
  | spawn ppid => exact h.addProcess hc
  | exec pid => exact h
  | exit pid code | kill pid code => exact h.killWithCode hc
  | wait4 parent target => exact h.wait4 target
  | wakeup pid => exact h.mild mild_wakeup
  | requeue pid =>
    refine h.mild (mild_touch (fun p _ hd => by simp [Process.requeue,hd]) fun p hd => ?_)
    rw [Process.requeue]
    split
    · exact ⟨nofun,rfl⟩
    · exact ⟨hd,rfl⟩
  | suspend pid sleep =>
    refine h.mild (mild_touch (fun p hp hd => absurd hd (hc p hp)) fun p _ => ⟨?_,rfl⟩)
    cases sleep <;> exact nofun
  | dispatch pid =>
    rw [step]
    split
    · next hq =>
      -- a dead process is on no queue
      refine h.mild (mild_modify (fun p hp hd => ?_) fun p _ => ⟨nofun,rfl⟩)
      simp [queued,hp,h.off pid p hp hd] at hq
    · exact h
  | switch running => exact ⟨⟨h.bound,h.fresh,h.off⟩,h.gone,h.dead,h.delivers⟩

/-- No child is noted or returned yet. -/
structure Initial (s : Table) : Prop extends Tidy s where
  ended : ∀ c, s.ended c = none
  returned : s.returned = []

theorem Initial.inv (h : Initial s) : Inv s := by
  have hr : ∀ c, s.returns c = [] := fun c => by simp [returns,h.returned]
  refine ⟨h.toTidy,fun c hc => absurd (hr c) hc,fun c q k hc => ?_,fun c q k hc => ?_,
    fun c => by simp [hr]⟩
  all_goals
    rw [h.ended] at hc
    cases hc

/-- In every run that makes no process while a child is owed, kills no process twice and lets none
sleep or block that was killed, a child that dies while its parent lives is returned to it once
with its code, or waits for it. -/
theorem statuses_delivered (h : Initial s) (es : List TableEvent) (hc : Along step Careful s es) :
    (s.run es).Delivers :=
  (hc.invariant (fun _ _ => step_inv) h.inv).delivers

/-- `init`, a shell, its child and a second process, which runs. -/
def small : Table where
  procs pid :=
    if pid = 1 then some ⟨0,.blocked,0,false,false⟩
    else if pid = 2 then some ⟨1,.blocked,0,false,false⟩
    else if pid = 3 then some ⟨2,.ready,0,false,true⟩
    else if pid = 4 then some ⟨1,.running,0,false,false⟩
    else none
  nextPid := 5
  running pid := pid == 4
  ended _ := none
  returned := []

theorem initial_small : Initial small := by
  refine ⟨⟨fun c hc => ?_,fun c p hp hd => ?_,fun c p hp hd => ?_⟩,fun _ => rfl,rfl⟩
  · simp only [small] at hc ⊢
    rw [if_neg (by omega),if_neg (by omega),if_neg (by omega),if_neg (by omega)]
  · simp only [small] at hp
    split_ifs at hp <;> cases hp <;> rfl
  · simp only [small] at hp
    split_ifs at hp <;> cases hp <;> cases hd

/-- The child ends, its parent collects it, and then the other process forks. -/
def collected : List TableEvent := [.exit 3 42,.wait4 2 none,.fork 4]

theorem careful_collected : Along step Careful small collected := by
  have hexit : small.Careful (.exit 3 42) := by
    intro p hp
    obtain rfl := some.inj hp
    decide
  refine ⟨hexit,trivial,fun c hr => ?_,trivial⟩
  -- the processes left all live
  have hlt : c < 5 := by
    by_contra hc
    have hi : Inv ((small.step (.exit 3 42)).step (.wait4 2 none)) :=
      step_inv (step_inv initial_small.inv hexit) trivial
    have hn : ((small.step (.exit 3 42)).step (.wait4 2 none)).nextPid = 5 := by decide
    rw [reapable,hi.bound c (hn ▸ Nat.le_of_not_lt hc)] at hr
    cases hr
  have hnone : ∀ c < 5, ((small.step (.exit 3 42)).step (.wait4 2 none)).reapable c = false := by decide
  rw [hnone c hlt] at hr
  cases hr

theorem statuses_delivered_collected :
    (small.run collected).returned = [(2,3,42)] ∧ (small.run collected).Delivers :=
  ⟨by decide,statuses_delivered initial_small collected careful_collected⟩

/-- The other process forks before the parent has collected the child. -/
def swept : List TableEvent := [.exit 3 42,.fork 4]

/-- The child is killed while it runs, goes to sleep and is woken again. -/
def slept : List TableEvent := [.dispatch 3,.kill 3 9,.suspend 3 true,.wakeup 3]

theorem status_lost : Initial small ∧ ¬(small.run swept).Delivers ∧ ¬(small.run slept).Delivers := by
  have hlost : ∀ es k, (small.run es).ended 3 = some (2,k) → (small.run es).alive 2 →
      (small.run es).isZombie 2 none 3 = false → (small.run es).returns 3 = [] →
      ¬(small.run es).Delivers := by
    intro es k he ha hz hr h
    rcases h.1 3 2 k he ha with ⟨-,p,hp,hd,hc,hq,-⟩ | h
    · simp [isZombie,hp,hd,hc,hq] at hz
    · rw [hr] at h
      cases h
  exact ⟨initial_small,hlost swept 42 (by decide) (by decide) (by decide) (by decide),
    hlost slept 9 (by decide) (by decide) (by decide) (by decide)⟩

end Miku.Sched.Table
