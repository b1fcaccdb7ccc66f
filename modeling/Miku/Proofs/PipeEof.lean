import Miku.Lib.Run
import Miku.Vfs.PipeEnds

namespace Miku.Vfs.Pipeline
open Lib Function List Option

variable {s t : Pipeline} {pid r : Nat}

/-- The process has a writable descriptor of the pipe. -/
def Writer (s : Pipeline) (pid : Nat) : Prop := anyWriterOn (s.tables pid) s.vnode

/-- Every process that could write has closed its descriptors or is dead. -/
def Finished (s : Pipeline) : Prop := ∀ pid, s.life pid = .alive → ¬s.Writer pid

def Drained (s : Pipeline) : Prop := s.size ≤ s.readPos

instance : Decidable (s.Writer pid) := inferInstanceAs (Decidable (_ = true))

instance : Decidable s.Drained := inferInstanceAs (Decidable (_ ≤ _))

/-- Only living processes take steps, and none is killed that has a writable descriptor of
the pipe, or may just have given one to a child. -/
def Clean (s : Pipeline) : PipeEvent → Prop
  | .call pid _ | .attempt pid | .register pid | .die pid => s.life pid = .alive
  | .kill pid => ¬s.Writer pid ∧ ∀ child, s.phase pid ≠ .forking child
  | .reap _ => True

/-- A descriptor of the pipe that may be written. -/
def onPipe (v : Nat) (f : OpenFile) : Bool := f.vnodeId == v && f.flags.has OpenFlags.write

theorem anyWriterOn_iff {t : FdTable} :
    anyWriterOn t v ↔ ∃ fd < maxOpenFiles, ∃ f, t fd = some f ∧ onPipe v f := by
  simp [anyWriterOn,onPipe,Option.any_eq_true]

theorem anyWriterOn_update {t : FdTable} (h : anyWriterOn (update t fd x) v) :
    anyWriterOn t v ∨ ∃ f, x = some f ∧ onPipe v f := by
  obtain ⟨e,he,f,hf,hp⟩ := anyWriterOn_iff.mp h
  by_cases hed : e = fd
  · subst hed
    rw [update_self] at hf
    exact .inr ⟨f,hf,hp⟩
  · rw [update_of_ne hed] at hf
    exact .inl (anyWriterOn_iff.mpr ⟨e,he,f,hf,hp⟩)

theorem getFd_some (h : s.getFd pid fd = some f) : fd < maxOpenFiles ∧ s.tables pid fd = some f := by
  rw [getFd] at h
  split at h
  · next hlt => exact ⟨hlt,h⟩
  · cases h

theorem writer_of_getFd (h : s.getFd pid fd = some f) (hp : onPipe s.vnode f) : s.Writer pid := by
  obtain ⟨hlt,hf⟩ := getFd_some h
  exact anyWriterOn_iff.mpr ⟨fd,hlt,f,hf,hp⟩

/-- One process may lose writable descriptors of the pipe; its phase may change. -/
structure Owns (s t : Pipeline) (pid : Nat) : Prop where
  vnode : t.vnode = s.vnode
  life : t.life = s.life
  next : t.nextPid = s.nextPid
  tables : ∀ q, q ≠ pid → t.tables q = s.tables q
  phase : ∀ q, q ≠ pid → t.phase q = s.phase q
  writer : t.Writer pid → s.Writer pid

theorem Owns.refl : Owns s s pid := ⟨rfl,rfl,rfl,fun _ _ => rfl,fun _ _ => rfl,id⟩

theorem Owns.writers (h : Owns s t pid) (hw : t.Writer q) : s.Writer q := by
  by_cases hq : q = pid
  · subst hq
    exact h.writer hw
  · rwa [Writer,h.tables q hq,h.vnode] at hw

theorem owns_setTable (h : anyWriterOn x s.vnode → s.Writer pid) : Owns s (s.setTable pid x) pid := by
  refine ⟨rfl,rfl,rfl,fun q hq => update_of_ne hq ..,fun _ _ => rfl,fun hw => h ?_⟩
  simpa [Writer,setTable] using hw

theorem owns_setPhase (h : Owns s t pid) : Owns s (t.setPhase pid p) pid :=
  ⟨h.vnode,h.life,h.next,h.tables,fun q hq => (update_of_ne hq ..).trans (h.phase q hq),h.writer⟩

theorem owns_alloc (h : onPipe s.vnode f → s.Writer pid) : Owns s (s.alloc pid f) pid := by
  rw [alloc]
  split
  · refine owns_setTable fun hw => ?_
    rcases anyWriterOn_update hw with hw | ⟨f',hf,hp⟩
    · exact hw
    · obtain rfl := some.inj hf
      exact h hp
  · exact .refl

theorem owns_call (hc : c ≠ .fork) : Owns s (s.call pid c) pid := by
  cases c with
  | «open» id flags =>
    rw [call]
    split
    · exact .refl
    · next hid => exact owns_alloc fun hp => absurd (by simpa [onPipe] using hp) (by simp [hid])
  | close fd =>
    refine owns_setTable fun hw => ?_
    rcases anyWriterOn_update hw with hw | ⟨f,hf,-⟩
    · exact hw
    · cases hf
  | dup oldFd =>
    rw [call]
    split
    · next f hf => exact owns_alloc (writer_of_getFd hf)
    · exact .refl
  | dup2 oldFd newFd =>
    rw [call]
    split
    · next f hf =>
      split
      · refine owns_setTable fun hw => ?_
        rcases anyWriterOn_update hw with hw | ⟨f',hf',hp⟩
        · exact hw
        · obtain rfl := some.inj hf'
          exact writer_of_getFd hf hp
      · exact .refl
    · exact .refl
  | exec =>
    refine owns_setTable fun hw => ?_
    obtain ⟨e,he,f,hf,hp⟩ := anyWriterOn_iff.mp hw
    exact anyWriterOn_iff.mpr ⟨e,he,f,(filter_eq_some_iff.mp hf).1,hp⟩
  | fork => exact absurd rfl hc
  | exit => exact owns_setPhase (owns_setTable fun hw => by simp [anyWriterOn] at hw)
  | write fd n =>
    rw [call]
    split
    · split
      · exact ⟨rfl,rfl,rfl,fun _ _ => rfl,fun _ _ => rfl,id⟩
      · exact .refl
    · exact .refl
  | read fd len =>
    rw [call]
    split
    · split
      · exact owns_setPhase .refl
      · exact .refl
    · exact .refl

theorem owns_attempt : Owns s (s.attempt pid) pid := by
  have hset : ∀ p, Owns s (s.setPhase pid p) pid := fun _ => owns_setPhase .refl
  rw [attempt]
  split
  · split
    · exact hset _
    · exact ⟨rfl,rfl,rfl,fun _ _ => rfl,(hset .user).phase,id⟩
  · split
    · exact hset _
    · exact ⟨rfl,rfl,rfl,fun _ _ => rfl,(hset .user).phase,id⟩
  · exact .refl

/-- A table with a writable descriptor of the pipe is that of a living process, or the copy
of one that is just forking. -/
structure Inv (s : Pipeline) : Prop where
  fresh : ∀ q, s.nextPid ≤ q → ¬s.Writer q ∧ s.phase q = .user ∧ s.life q ≠ .alive
  child : ∀ p q, s.phase p = .forking q → q < s.nextPid
  exiting : ∀ q, s.phase q = .exiting → ¬s.Writer q
  held : ∀ q, s.Writer q →
    s.life q = .alive ∨ ∃ p, s.life p = .alive ∧ s.phase p = .forking q ∧ s.Writer p

theorem Inv.lt_of_writer (h : Inv s) (hw : s.Writer q) : q < s.nextPid := by
  by_contra hq
  exact (h.fresh q (Nat.le_of_not_lt hq)).1 hw

theorem Inv.lt_of_alive (h : Inv s) (ha : s.life q = .alive) : q < s.nextPid := by
  by_contra hq
  exact (h.fresh q (Nat.le_of_not_lt hq)).2.2 ha

theorem Inv.silent (h : Inv s) (hf : s.Finished) : ¬s.Writer q := by
  intro hw
  rcases h.held q hw with ha | ⟨p,ha,-,hp⟩
  · exact hf q ha hw
  · exact hf p ha hp

theorem Inv.owns (h : Inv s) (ho : Owns s t pid) (hlt : pid < s.nextPid)
    (hp : ∀ child, s.phase pid ≠ .forking child) (hp' : ∀ child, t.phase pid ≠ .forking child)
    (he : t.phase pid = .exiting → ¬t.Writer pid) : Inv t := by
  refine ⟨fun q hq => ?_,fun p q hq => ?_,fun q hq => ?_,fun q hq => ?_⟩
  · rw [ho.next] at hq
    have hne : q ≠ pid := by omega
    rw [ho.phase q hne,ho.life]
    exact ⟨fun hw => (h.fresh q hq).1 (ho.writers hw),(h.fresh q hq).2⟩
  · have hne : p ≠ pid := by
      rintro rfl
      exact hp' q hq
    rw [ho.phase p hne] at hq
    rw [ho.next]
    exact h.child p q hq
  · by_cases hne : q = pid
    · subst hne
      exact he hq
    · rw [ho.phase q hne] at hq
      exact fun hw => h.exiting q hq (ho.writers hw)
  · rw [ho.life]
    refine (h.held q (ho.writers hq)).imp_right fun ⟨p,ha,hf,hw⟩ => ⟨p,ha,?_⟩
    have hne : p ≠ pid := by
      rintro rfl
      exact hp q hf
    rw [ho.phase p hne,Writer,ho.tables p hne,ho.vnode]
    exact ⟨hf,hw⟩

theorem writer_fork : (s.call pid .fork).Writer q ↔ if q = s.nextPid then s.Writer pid else s.Writer q := by
  by_cases hq : q = s.nextPid <;> simp [Writer,call,setTable,setPhase,hq]

theorem Inv.fork (h : Inv s) (ha : s.life pid = .alive) (hp : s.phase pid = .user) :
    Inv (s.call pid .fork) := by
  have hlt := h.lt_of_alive ha
  have hph : ∀ q, q ≠ pid → (s.call pid .fork).phase q = s.phase q := fun q hq => update_of_ne hq ..
  have hself : (s.call pid .fork).phase pid = .forking s.nextPid := update_self ..
  have hpw : (s.call pid .fork).Writer pid ↔ s.Writer pid := by rw [writer_fork,if_neg (by omega)]
  refine ⟨fun q hq => ?_,fun p q hq => ?_,fun q hq => ?_,fun q hq => ?_⟩
  · have hq' : s.nextPid + 1 ≤ q := hq
    rw [writer_fork,if_neg (by omega),hph q (by omega)]
    exact h.fresh q (by omega)
  · show q < s.nextPid + 1
    by_cases hne : p = pid
    · subst hne
      rw [hself] at hq
      cases hq
      exact Nat.lt_succ_self _
    · rw [hph p hne] at hq
      exact Nat.lt_succ_of_lt (h.child p q hq)
  · have hne : q ≠ pid := by
      rintro rfl
      rw [hself] at hq
      cases hq
    rw [hph q hne] at hq
    have hne' : q ≠ s.nextPid := by
      rintro rfl
      rw [(h.fresh _ .refl).2.1] at hq
      cases hq
    rw [writer_fork,if_neg hne']
    exact h.exiting q hq
  · rw [writer_fork] at hq
    split at hq
    · next he =>
      subst he
      exact .inr ⟨pid,ha,hself,hpw.mpr hq⟩
    · refine (h.held q hq).imp_right fun ⟨p,hpa,hpf,hpw'⟩ => ⟨p,hpa,?_⟩
      have hne : p ≠ pid := by
        rintro rfl
        rw [hp] at hpf
        cases hpf
      have hlt' := h.lt_of_writer hpw'
      rw [hph p hne,writer_fork,if_neg (by omega)]
      exact ⟨hpf,hpw'⟩

/-- A process is not alive any more. -/
theorem Inv.ends (h : Inv s) (hl : l ≠ .alive) (hw : ¬s.Writer pid)
    (hp : ∀ child, s.life pid = .alive → s.phase pid ≠ .forking child) : Inv (s.setLife pid l) := by
  have hlife : ∀ q, (s.setLife pid l).life q = .alive ↔ q ≠ pid ∧ s.life q = .alive := by
    intro q
    by_cases hq : q = pid <;> simp [setLife,hq,hl]
  refine ⟨fun q hq => ⟨(h.fresh q hq).1,(h.fresh q hq).2.1,?_⟩,h.child,h.exiting,fun q hq => ?_⟩
  · rw [Ne,hlife]
    exact fun ha => (h.fresh q hq).2.2 ha.2
  · have hq' : s.Writer q := hq
    have hne : q ≠ pid := by
      rintro rfl
      exact hw hq'
    rcases h.held q hq' with ha | ⟨p,ha,hf,hpw⟩
    · exact .inl ((hlife q).mpr ⟨hne,ha⟩)
    · refine .inr ⟨p,(hlife p).mpr ⟨?_,ha⟩,hf,hpw⟩
      rintro rfl
      exact hp q ha hf

theorem Inv.register {c : Nat} (h : Inv s) (hp : s.phase pid = .forking c) :
    Inv ((s.setLife c .alive).setPhase pid .user) := by
  have hlife : ∀ q, s.life q = .alive → (update s.life c .alive) q = .alive := by
    intro q ha
    by_cases hq : q = c <;> simp [hq,ha]
  have hc := h.child pid c hp
  have hne : ∀ q, s.nextPid ≤ q → q ≠ pid ∧ q ≠ c := by
    refine fun q hq => ⟨?_,by omega⟩
    rintro rfl
    rw [(h.fresh q hq).2.1] at hp
    cases hp
  have hself : ((s.setLife c .alive).setPhase pid .user).phase pid = .user := update_self ..
  have hother : ∀ q, q ≠ pid → ((s.setLife c .alive).setPhase pid .user).phase q = s.phase q :=
    fun q hq => update_of_ne hq ..
  refine ⟨fun q hq => ?_,fun p q hq => ?_,fun q hq => ?_,fun q hq => ?_⟩
  · obtain ⟨hw,hph,hl⟩ := h.fresh q hq
    refine ⟨hw,(update_of_ne (hne q hq).1 ..).trans hph,?_⟩
    show update s.life c .alive q ≠ .alive
    rwa [update_of_ne (hne q hq).2]
  · by_cases he : p = pid
    · subst he
      rw [hself] at hq
      cases hq
    · rw [hother p he] at hq
      exact h.child p q hq
  · by_cases he : q = pid
    · subst he
      rw [hself] at hq
      cases hq
    · rw [hother q he] at hq
      exact h.exiting q hq
  · rcases h.held q hq with ha | ⟨p,ha,hf,hpw⟩
    · exact .inl (hlife q ha)
    · by_cases he : p = pid
      · subst he
        rw [hp] at hf
        cases hf
        exact .inl (update_self ..)
      · exact .inr ⟨p,hlife p ha,(update_of_ne he ..).trans hf,hpw⟩

theorem phase_call (hc : c ≠ .fork) (hp : s.phase pid = .user) :
    ((s.call pid c).phase pid = .exiting → ¬(s.call pid c).Writer pid) ∧
      ∀ child, (s.call pid c).phase pid ≠ .forking child := by
  have halloc : ∀ f, (s.alloc pid f).phase = s.phase := by
    intro f
    rw [alloc]
    split <;> rfl
  cases c with
  | fork => exact absurd rfl hc
  | exit =>
    refine ⟨fun _ => ?_,fun child => ?_⟩
    · simp [Writer,call,setTable,setPhase,anyWriterOn]
    · simp [call,setTable,setPhase]
  | _ =>
    simp only [call]
    repeat' split
    all_goals simp [setTable,setPhase,halloc,hp]

theorem phase_attempt (hp : ∀ child, s.phase pid ≠ .forking child)
    (he : s.phase pid = .exiting → ¬s.Writer pid) :
    ((s.attempt pid).phase pid = .exiting → ¬(s.attempt pid).Writer pid) ∧
      ∀ child, (s.attempt pid).phase pid ≠ .forking child := by
  rw [attempt]
  repeat' split
  all_goals first
    | exact ⟨he,hp⟩
    | simp [setPhase]

theorem step_inv (h : Inv s) (hc : s.Clean e) : Inv (s.step e) := by
  cases e with
  | call pid c =>
    rw [step]
    split
    · next hp =>
      by_cases hf : c = .fork
      · subst hf
        exact h.fork hc hp
      · obtain ⟨he,hp'⟩ := phase_call hf hp
        exact h.owns (owns_call hf) (h.lt_of_alive hc) (by simp [hp]) hp' he
    · exact h
  | attempt pid =>
    by_cases hf : ∃ child, s.phase pid = .forking child
    · obtain ⟨child,hf⟩ := hf
      simpa [step,attempt,hf] using h
    · have hp : ∀ child, s.phase pid ≠ .forking child := fun child hx => hf ⟨child,hx⟩
      obtain ⟨he,hp'⟩ := phase_attempt hp (h.exiting pid)
      exact h.owns owns_attempt (h.lt_of_alive hc) hp hp' he
  | register pid =>
    rw [step]
    split
    · next child hp => exact h.register hp
    · exact h
  | die pid =>
    rw [step]
    split
    · next hp => exact h.ends (by decide) (h.exiting pid hp) (by simp [hp])
    · exact h
  | kill pid =>
    rw [step]
    split
    · exact h.ends (by decide) hc.1 fun child _ => hc.2 child
    · exact h
  | reap pid =>
    rw [step]
    split
    · next hd =>
      have hw : ¬(s.setTable pid fun _ => none).Writer pid := by simp [Writer,setTable,anyWriterOn]
      have hlost : ∀ q, (s.setTable pid fun _ => none).Writer q → s.Writer q := fun q =>
        (owns_setTable fun hx => by simp [anyWriterOn] at hx).writers
      have hkept : ∀ q, q ≠ pid → s.Writer q → (s.setTable pid fun _ => none).Writer q := by
        intro q hq hx
        simpa [Writer,setTable,hq] using hx
      have ht : Inv (s.setTable pid fun _ => none) := by
        refine ⟨fun q hq => ⟨fun hx => (h.fresh q hq).1 (hlost q hx),(h.fresh q hq).2⟩,h.child,
          fun q hq hx => h.exiting q hq (hlost q hx),fun q hx => ?_⟩
        refine (h.held q (hlost q hx)).imp_right fun ⟨p,ha,hf,hp⟩ => ⟨p,ha,hf,hkept p ?_ hp⟩
        rintro rfl
        rw [hd] at ha
        cases ha
      exact ht.ends (by decide) hw fun _ ha => by
        have ha' : s.life pid = .alive := ha
        rw [hd] at ha'
        cases ha'
    · exact h

/-- Nothing is left in the pipe, and no table has a writable descriptor of it. -/
def Over (s : Pipeline) : Prop := (∀ q, ¬s.Writer q) ∧ s.Drained

/-- Only a fork gives a process a writable descriptor that it had not. -/
theorem writer_of_step (he : ∀ pid, e ≠ .call pid .fork) (hw : (s.step e).Writer q) :
    s.Writer q := by
  cases e with
  | call pid c =>
    rw [step] at hw
    split at hw
    · exact (owns_call fun hc => he pid (hc ▸ rfl)).writers hw
    · exact hw
  | attempt pid => exact owns_attempt.writers hw
  | register pid | die pid | kill pid =>
    rw [step] at hw
    split at hw <;> exact hw
  | reap pid =>
    rw [step] at hw
    split at hw
    · exact (owns_setTable fun hx => by simp [anyWriterOn] at hx : Owns s _ pid).writers hw
    · exact hw

variable {es : List PipeEvent}

theorem writer_of_run (he : ∀ e ∈ es, ∀ pid, e ≠ .call pid .fork)
    (hw : (s.run es).Writer q) : s.Writer q := by
  induction es generalizing s with
  | nil => exact hw
  | cons e es ih =>
    exact writer_of_step (he e mem_cons_self) (ih (fun x hx => he x (mem_cons_of_mem _ hx)) hw)

theorem writers_step (hw : (s.step e).Writer q) : ∃ p, s.Writer p := by
  by_cases he : ∃ pid, e = .call pid .fork
  · obtain ⟨pid,rfl⟩ := he
    rw [step] at hw
    split at hw
    · rw [writer_fork] at hw
      split at hw
      · exact ⟨pid,hw⟩
      · exact ⟨q,hw⟩
    · exact ⟨q,hw⟩
  · exact ⟨q,writer_of_step (fun pid hx => he ⟨pid,hx⟩) hw⟩

theorem drained_step (h : s.Over) : (s.step e).Drained := by
  have hd : s.size ≤ s.readPos := h.2
  have halloc : ∀ pid f, (s.alloc pid f).Drained := by
    intro pid f
    rw [alloc]
    split <;> exact hd
  cases e with
  | call pid c =>
    rw [step]
    split
    · cases c with
      | write fd n =>
        rw [call]
        split
        · next f hf =>
          rw [if_neg]
          · exact hd
          · rintro ⟨hv,hw⟩
            exact h.1 pid (writer_of_getFd hf (by simp [onPipe,hv,hw]))
        · exact hd
      | _ =>
        simp only [call]
        repeat' split
        all_goals first
          | exact hd
          | exact halloc ..
    · exact hd
  | attempt pid =>
    rw [step,attempt]
    split
    · rw [if_pos hd]
      exact hd
    · split <;> exact hd
    · exact hd
  | register pid | die pid | kill pid | reap pid =>
    rw [step]
    split <;> exact hd

theorem Over.step (h : s.Over) : (s.step e).Over :=
  ⟨fun _ hw => (writers_step hw).elim h.1,drained_step h⟩

theorem hasWriter_of_over (h : s.Over) : s.hasWriter = false := by
  rw [hasWriter,List.any_eq_false]
  exact fun pid _ => h.1 pid

variable {len : Nat} {b : Bool}

/-- Nobody but the reader itself gets it out of its call. -/
theorem phase_step (hr : s.phase r = .reading len b)
    (he : e ≠ .attempt r) : (s.step e).phase r = .reading len b := by
  cases e with
  | call pid c =>
    rw [Pipeline.step]
    split
    · next hp =>
      have hne : r ≠ pid := by
        rintro rfl
        rw [hp] at hr
        cases hr
      by_cases hf : c = .fork
      · subst hf
        exact (update_of_ne hne ..).trans hr
      · rw [(owns_call hf).phase r hne,hr]
    · exact hr
  | attempt pid =>
    have hne : r ≠ pid := by
      rintro rfl
      exact he rfl
    exact (owns_attempt.phase r hne).trans hr
  | register pid =>
    rw [Pipeline.step]
    split
    · next child hp =>
      have hne : r ≠ pid := by
        rintro rfl
        rw [hp] at hr
        cases hr
      exact (update_of_ne hne ..).trans hr
    · exact hr
  | die pid | kill pid | reap pid =>
    rw [Pipeline.step]
    split <;> exact hr

theorem eof_step (h : r ∈ s.eof) : r ∈ (s.step e).eof := by
  have halloc : ∀ pid f, (s.alloc pid f).eof = s.eof := by
    intro pid f
    rw [alloc]
    split <;> rfl
  cases e with
  | call pid c =>
    rw [Pipeline.step]
    split
    · cases c <;> simp only [call]
      all_goals repeat' split
      all_goals first
        | exact h
        | rw [halloc]; exact h
    · exact h
  | attempt pid =>
    rw [Pipeline.step,attempt]
    repeat' split
    all_goals first
      | exact h
      | exact mem_cons_of_mem _ h
  | register pid | die pid | kill pid | reap pid =>
    rw [Pipeline.step]
    split <;> exact h

theorem eof_run (h : r ∈ s.eof) : r ∈ (s.run es).eof := by
  induction es generalizing s with
  | nil => exact h
  | cons e es ih => exact ih (eof_step h)

/-- The reader needs two steps, whatever the others do. -/
theorem eof_of_over (h : s.Over)
    (hr : s.phase r = .reading len b) (hn : (if b then 1 else 2) ≤ es.count (.attempt r)) :
    r ∈ (s.run es).eof := by
  induction es generalizing s b with
  | nil =>
    rw [count_nil] at hn
    split at hn <;> omega
  | cons e es ih =>
    by_cases he : e = .attempt r
    · subst he
      rw [count_cons_self] at hn
      cases b with
      | false =>
        have hnext : (s.step (.attempt r)).phase r = .reading len true := by
          have hd : s.size ≤ s.readPos := h.2
          simp only [Pipeline.step,attempt,hr]
          rw [if_pos hd]
          exact update_self ..
        exact ih (b := true) h.step hnext (by simpa using hn)
      | true =>
        have hend : r ∈ (s.step (.attempt r)).eof := by
          simp [Pipeline.step,attempt,hr,hasWriter_of_over h]
        exact eof_run (s := s.step (.attempt r)) hend
    · rw [count_cons_of_ne he] at hn
      exact ih h.step (phase_step hr he) hn

/-- A start between calls: only living processes have descriptors of the pipe. -/
structure Initial (s : Pipeline) : Prop where
  alive : ∀ q, s.Writer q → s.life q = .alive
  bound : ∀ q, s.life q = .alive → q < s.nextPid
  user : ∀ q, s.phase q = .user

theorem Initial.inv (h : Initial s) : Inv s := by
  refine ⟨fun q hq => ⟨fun hw => ?_,h.user q,fun ha => ?_⟩,fun p q hp => ?_,fun q hp => ?_,
    fun q hw => .inl (h.alive q hw)⟩
  · exact absurd (h.bound q (h.alive q hw)) (by omega)
  · exact absurd (h.bound q ha) (by omega)
  · rw [h.user] at hp
    cases hp
  · rw [h.user] at hp
    cases hp

/-- If no writer of the pipe is killed, then once all have closed it or exited a reader that
has drained it gets its end of file with two steps of its own. -/
theorem eof_reached (s : Pipeline) (hs : Initial s) (es es' : List PipeEvent) (hc : Along step Clean s es)
    (hf : (s.run es).Finished) (hd : (s.run es).Drained) {len : Nat} {b : Bool}
    (hr : (s.run es).phase r = .reading len b) (hn : 2 ≤ es'.count (.attempt r)) :
    r ∈ ((s.run es).run es').eof := by
  have hi : Inv (s.run es) := hc.invariant (fun _ _ => step_inv) hs.inv
  refine eof_of_over ⟨fun q => hi.silent hf,hd⟩ hr ?_
  split <;> omega

def joined : Pipeline where
  tables pid fd :=
    if pid = 1 ∧ fd = 3 then some ⟨5,⟨OpenFlags.read⟩,0⟩
    else if pid = 2 ∧ fd = 4 then some ⟨5,⟨OpenFlags.write⟩,0⟩
    else none
  life pid := if pid = 1 ∨ pid = 2 then .alive else .absent
  phase _ := .user
  nextPid := 3
  vnode := 5
  size := 0
  readPos := 0
  eof := []

theorem not_writer_joined (hq : q ≠ 2) : ¬joined.Writer q := by
  intro hw
  obtain ⟨fd,-,f,hf,hp⟩ := anyWriterOn_iff.mp hw
  simp only [joined,hq,false_and,if_false] at hf
  split at hf
  · obtain rfl := some.inj hf
    revert hp
    decide
  · cases hf

theorem initial_joined : Initial joined := by
  refine ⟨fun q hw => ?_,fun q ha => ?_,fun _ => rfl⟩
  · have hq : q = 2 := by
      by_contra hq
      exact not_writer_joined hq hw
    subst hq
    decide
  · simp only [joined] at ha ⊢
    split at ha
    · omega
    · cases ha

/-- The writer exits while the reader waits. -/
def exits : List PipeEvent := [.call 1 (.read 3 10),.call 2 .exit,.die 2]

theorem clean_exits : Along step Clean joined exits := by
  have hread : joined.life 1 = .alive := by decide
  have hexit : (joined.step (.call 1 (.read 3 10))).life 2 = .alive := by decide
  have hdie : ((joined.step (.call 1 (.read 3 10))).step (.call 2 .exit)).life 2 = .alive := by decide
  exact ⟨hread,hexit,hdie,trivial⟩

theorem finished_exits : (joined.run exits).Finished := by
  intro q _ hw
  have hfork : ∀ e ∈ exits, ∀ pid, e ≠ .call pid .fork := by simp [exits]
  have hq : joined.Writer q := writer_of_run hfork hw
  by_cases h2 : q = 2
  · subst h2
    exact absurd hw (by decide)
  · exact not_writer_joined h2 hq

theorem eof_reached_exits : 1 ∈ ((joined.run exits).run [.attempt 1,.attempt 1]).eof := by
  have hr : (joined.run exits).phase 1 = .reading 10 false := by decide
  exact eof_reached joined initial_joined exits _ clean_exits finished_exits (by decide) hr (by decide)

/-- The writer is killed instead. -/
def killed : List PipeEvent := [.call 1 (.read 3 10),.kill 2]

theorem never_eof (h : s.hasWriter = true) (hd : s.size ≤ s.readPos)
    (hr : s.phase r = .reading len b) (he : r ∉ s.eof) (n : Nat) :
    r ∉ (s.run (List.replicate n (.attempt r))).eof := by
  induction n generalizing s b with
  | zero => exact he
  | succ n ih =>
    have hnext : s.step (.attempt r) = s.setPhase r (.reading len !b) := by
      cases b with
      | false => simp [step,attempt,hr,hd]
      | true => simp [step,attempt,hr,h]
    rw [replicate_succ,run,foldl_cons,hnext]
    exact ih h hd (update_self ..) he

/-- The reader waits for ever, unless someone reaps the writer. -/
theorem no_eof_after_kill : Initial joined ∧ (joined.run killed).Finished ∧
    (joined.run killed).Drained ∧ (joined.run killed).phase 1 = .reading 10 false ∧
    ∀ n, 1 ∉ ((joined.run killed).run (List.replicate n (.attempt 1))).eof := by
  have hr : (joined.run killed).phase 1 = .reading 10 false := by decide
  refine ⟨initial_joined,fun q ha hw => ?_,by decide,hr,never_eof (by decide) (by decide) hr (by decide)⟩
  by_cases hq : q = 2
  · subst hq
    exact absurd ha (by decide)
  · exact not_writer_joined hq hw

end Miku.Vfs.Pipeline
