import Miku.Lib.Run
import Miku.Sched.Processes

namespace Miku.Sched.Reaper
open Lib Option

variable {s : Reaper} {c : Nat}

/-- No CPU runs the freed process, and no queue has it. -/
abbrev Unused (s : Reaper) (e : ReapEvent) : Prop :=
  ∀ pid ∈ s.frees e, some pid ∉ s.current ∧ s.table.queued pid = false

/-- `wait4` finds only what `reap_dead` would take. -/
abbrev Careful (s : Reaper) (e : ReapEvent) : Prop := ∀ c ∈ s.finds e, s.reapable c

def Ended (p : Process) : Prop := p.state = .dead ∧ p.onRq = false

/-- Nothing brings the process back. -/
structure Gone (s : Reaper) (c : Nat) : Prop where
  lt : c < s.table.nextPid
  away : some c ∉ s.current
  ended : ∀ p, s.table.procs c = some p → Ended p

section

variable (h : s.Gone c)
include h

theorem Gone.modify (hf : ∀ p, c ∈ o → s.table.procs c = some p → Ended p → Ended (f p)) :
    (s.modify o f).Gone c := by
  cases o with
  | none => exact h
  | some pid =>
    refine ⟨h.lt,h.away,fun p hp => ?_⟩
    by_cases hc : c = pid
    · subst hc
      obtain ⟨q,hq,rfl⟩ : ∃ q, s.table.procs c = some q ∧ f q = p := by
        simpa [Reaper.modify,Table.modify] using hp
      exact hf q rfl hq (h.ended q hq)
    · exact h.ended p (by simpa [Reaper.modify,Table.modify,hc] using hp)

theorem Gone.free : (s.free o).Gone c := by
  cases o with
  | none => exact h
  | some pid =>
    refine ⟨h.lt,h.away,fun p hp => h.ended p ?_⟩
    by_cases hc : c = pid
    · simp [Reaper.free,Table.reapZombie,hc] at hp
    · simpa [Reaper.free,Table.reapZombie,hc] using hp

theorem Gone.found : Gone { s with found := l } c := ⟨h.lt,h.away,h.ended⟩

theorem Gone.not_queued : s.table.queued c = false := by
  rw [Table.queued,any_eq_false]
  intro p hp
  simp [(h.ended p hp).2]

theorem step_gone : (s.step e).Gone c := by
  cases e with
  | spawn ppid =>
    have hne := Nat.ne_of_lt h.lt
    exact ⟨Nat.lt_succ_of_lt h.lt,h.away,fun p hp => h.ended p (by simpa [step,Table.birth,hne] using hp)⟩
  | kill pid code => exact h.modify fun _ _ _ _ => ⟨rfl,rfl⟩
  | reparent pid =>
    rw [step,Table.reparent]
    split
    · refine ⟨h.lt,h.away,fun p hp => ?_⟩
      obtain ⟨q,hq,rfl⟩ := map_eq_some_iff.mp hp
      have := h.ended q hq
      split <;> exact this
    · exact h
  | wakeup pid =>
    rw [step,Table.wakeup,Table.touch]
    split
    · exact h.modify (o := some pid) fun p _ _ hd => by simpa [Process.wake,hd.1] using hd
    · exact h
  | requeue cpu => exact h.modify fun p _ _ hd => by simpa [Process.requeue,hd.1] using hd
  | suspend cpu sleep =>
    refine h.modify fun p hm _ _ => absurd ?_ h.away
    exact List.mem_of_getElem? (join_eq_some_iff.mp (eq_some_of_filter_eq_some hm))
  | switch cpu next =>
    rw [step]
    split
    · exact h
    · rename_i hq
      have hne : c ∉ next := by
        rintro rfl
        simp [h.not_queued] at hq
      have hk f : (s.modify next f).Gone c := h.modify fun _ hm => absurd hm hne
      refine ⟨(hk _).lt,fun hm => ?_,(hk _).ended⟩
      rcases List.mem_or_eq_of_mem_set hm with hm | hm
      · exact h.away hm
      · exact hne hm.symm
  | findZombieChild parent target =>
    refine Gone.found (s := s.modify ..) (h.modify fun _ _ _ hd => ?_)
    exact hd
  | reapZombie pid => exact h.free.found
  | reapDead pid => exact h.free

end

theorem gone_of_reapable (hr : s.reapable c) (hc : c < s.table.nextPid) : s.Gone c := by
  simp only [reapable,Bool.and_eq_true,decide_eq_true_eq] at hr
  refine ⟨hc,hr.1.2,fun p hp => ?_⟩
  simpa [Table.queued,hp,Ended] using And.intro hr.1.1 hr.2

/-- The children found stay out of use. -/
def Sane (s : Reaper) : Prop := ∀ c ∈ s.found, s.Gone c

theorem step_sane (h : Sane s) (ha : s.Careful e) : Sane (s.step e) := by
  intro c hc
  apply step_gone
  cases e with
  | switch cpu next =>
    rw [step] at hc
    split at hc <;> exact h c hc
  | findZombieChild parent target =>
    rcases List.mem_append.mp hc with hc | hc
    · rw [mem_toList] at hc
      exact gone_of_reapable (ha c hc) (List.mem_range.mp (List.mem_of_find?_eq_some hc))
    · exact h c hc
  | reapZombie pid => exact h c (List.mem_of_mem_erase hc)
  | _ => exact h c hc

theorem unused_of_sane (h : Sane s) : s.Unused e := by
  intro pid hm
  cases e with
  | reapZombie c =>
    obtain ⟨⟨hf,-⟩,rfl⟩ := by simpa [frees] using hm
    exact ⟨(h c hf).away,(h c hf).not_queued⟩
  | reapDead c =>
    obtain ⟨hr,rfl⟩ := by simpa [frees] using hm
    simp only [reapable,Bool.and_eq_true,decide_eq_true_eq] at hr
    exact ⟨hr.1.2,by simpa using hr.2⟩
  | _ => cases hm

/-- Whatever the CPUs do: a process is freed when it is out of use, if `wait4` finds only children
that have left their CPU. -/
theorem reaped_unused (ha : Along step Careful (boot cpus) es) : Along step Unused (boot cpus) es :=
  .imp_of_invariant Sane (fun _ _ h _ => unused_of_sane h) (fun _ _ => step_sane) ha nofun

/-- A parent, and a child that ends on the other CPU. -/
def ending : List ReapEvent :=
  [.spawn 0,.switch 0 (some 1),.spawn 1,.switch 1 (some 2),.kill 2 0]

theorem reaped_unused_switched :
    Along step Unused (boot 2) (ending ++ [.switch 1 none,.findZombieChild 1 none,.reapZombie 2]) :=
  reaped_unused (by decide)

/-- The parent is faster than the switch. -/
theorem reaped_while_current :
    ¬Along step Unused (boot 2) (ending ++ [.findZombieChild 1 none,.reapZombie 2]) := by
  decide

end Miku.Sched.Reaper
