import Miku.Lib.Run
import Miku.Sched.Processes

namespace Miku.Sched.Family
open Lib

variable {s : Family} {c : Nat}

/-- A dead child that the parent waits for and has not got. -/
def Zombie (s : Family) (c : Nat) : Prop :=
  c ∈ s.children ∧ s.waitsFor c ∧ (s.child c).dead ∧ (s.child c).collected = false

/-- A step that this child still has to make wakes the parent if it stays blocked. -/
def WillWake (s : Family) (c : Nat) : Prop :=
  .load ∈ (s.child c).todo ∨ .cas .blocked ∈ (s.child c).todo

/-- The parent is blocked in `wait4`, there is a child for it to collect, and nothing that a
child still does will wake it. -/
def Lost (s : Family) : Prop :=
  s.parent = .blocked ∧ s.pc = .away ∧ (∃ c, s.Zombie c) ∧ ∀ c, ¬s.WillWake c

/-- The parent has looked at this child and will not again before it blocks. -/
def Passed (s : Family) (c : Nat) : Prop :=
  match s.pc with
  | .scan todo => c ∉ todo
  | .check | .test | .block => True
  | .user | .away => False

instance : Decidable (s.Passed c) := by
  unfold Passed
  split <;> infer_instance

/-- No child dies between the look of its parent and the moment the parent blocks. -/
def Timely (s : Family) : Event → Prop
  | .childStep c => (s.child c).todo.head? = some .mark → s.waitsFor c → ¬s.Passed c
  | _ => True

instance {e : Event} : Decidable (s.Timely e) := by
  cases e <;> unfold Timely <;> infer_instance

/-- A child marks itself dead once, and first of all, and wakes its parent next. -/
def InOrder (todo : List ExitStep) : Prop :=
  .mark ∉ todo ∨ ∃ rest, todo = .mark :: .load :: rest ∧ .mark ∉ rest

structure Inv (s : Family) : Prop where
  looked : ∀ c, s.Passed c → ¬s.Zombie c
  away : s.parent = .blocked → s.pc = .away
  woken : s.parent = .blocked → ∀ c, s.Zombie c → s.WillWake c
  order : ∀ c, InOrder (s.child c).todo

theorem Inv.not_lost (h : Inv s) : ¬s.Lost := by
  rintro ⟨hb,-,⟨c,hc⟩,hw⟩
  exact hw c (h.woken hb c hc)

/-- As long as the parent is not blocked only what it has looked at matters. -/
theorem Inv.of_awake {t : Family} (hp : t.parent ≠ .blocked) (ho : ∀ c, InOrder (t.child c).todo)
    (hl : ∀ c, t.Passed c → ¬t.Zombie c) : Inv t :=
  ⟨hl,fun h => absurd h hp,fun h => absurd h hp,ho⟩

theorem Inv.lookNext (h : Inv s) (hp : s.parent = .running) (hpc : s.pc = .scan todo) :
    Inv (s.lookNext todo) := by
  have hne : s.parent ≠ .blocked := by rw [hp]; decide
  have hpassed : ∀ c, c ∉ todo → ¬s.Zombie c := fun c hc => h.looked c (by rw [Passed,hpc]; exact hc)
  cases todo with
  | nil => exact .of_awake hne h.order fun c _ => hpassed c List.not_mem_nil
  | cons d ds =>
    rw [Family.lookNext]
    split
    · refine .of_awake hne (fun c => ?_) fun c hc => hc.elim
      by_cases hcd : c = d
      · subst hcd
        simpa [collect,setChild] using h.order c
      · simpa [collect,setChild,hcd] using h.order c
    · rename_i hd
      refine .of_awake hne h.order fun c hc hz => ?_
      by_cases hcd : c = d
      · subst hcd
        obtain ⟨-,hw,hdead,hcol⟩ := hz
        exact hd (by simp only [waitsFor] at hw ⊢; simp_all)
      · exact hpassed c (fun hm => (List.mem_cons.mp hm).elim hcd hc) hz

theorem order_of_cons (h : InOrder (e :: todo)) : .mark ∉ todo := by
  rcases h with h | ⟨rest,he,hr⟩
  · exact fun hm => h (List.mem_cons_of_mem e hm)
  · cases he
    simpa using hr

/-- What a step of a child that does not end its life leaves to it. -/
theorem Inv.advance (h : Inv s) {x : Child} (hd : x.dead = (s.child c).dead)
    (hc : x.collected = (s.child c).collected) (ho : InOrder x.todo)
    (hw : s.parent = .blocked → s.WillWake c → .load ∈ x.todo ∨ .cas .blocked ∈ x.todo) :
    Inv (s.setChild c x) := by
  have hz : ∀ d, (s.setChild c x).Zombie d ↔ s.Zombie d := by
    intro d
    by_cases hdc : d = c
    · subst hdc
      simp [Zombie,setChild,hd,hc,waitsFor]
    · simp [Zombie,setChild,hdc,waitsFor]
  refine ⟨fun d hp hzd => h.looked d hp ((hz d).mp hzd),h.away,fun hb d hzd => ?_,fun d => ?_⟩
  · have := h.woken hb d ((hz d).mp hzd)
    by_cases hdc : d = c
    · subst hdc
      simpa [WillWake,setChild] using hw hb this
    · simpa [WillWake,setChild,hdc] using this
  · by_cases hdc : d = c
    · subst hdc
      simpa [setChild] using ho
    · simpa [setChild,hdc] using h.order d

theorem Inv.wake (h : Inv s) (seen : ProcState) : Inv (s.wake seen) := by
  rw [Family.wake]
  split
  · exact .of_awake nofun h.order h.looked
  · exact h

theorem Inv.exitStep (h : Inv s) (ht : s.Timely (.childStep c)) : Inv (s.exitStep c) := by
  have ho := h.order c
  rw [Family.exitStep]
  dsimp only
  split
  · exact h
  · -- the child dies: its parent has not passed it, and is woken next
    rename_i rest htodo
    rw [htodo] at ho
    obtain ⟨rest,rfl,hrest⟩ : ∃ r, rest = .load :: r ∧ ExitStep.mark ∉ r := by
      rcases ho with ho | ⟨r,he,hr⟩
      · simp at ho
      · exact ⟨r,(List.cons.inj he).2,hr⟩
    have hold : ∀ d, d ≠ c → ((s.setChild c { s.child c with todo := .load :: rest, dead := true }).Zombie d ↔
        s.Zombie d) := by
      intro d hd
      simp [Zombie,setChild,hd,waitsFor]
    refine ⟨fun d hp hz => ?_,h.away,fun hb d hz => ?_,fun d => ?_⟩
    · by_cases hd : d = c
      · subst hd
        exact ht (by rw [htodo]; rfl) hz.2.1 hp
      · exact h.looked d hp ((hold d hd).mp hz)
    · by_cases hd : d = c
      · subst hd
        exact .inl (by simp [setChild])
      · have := h.woken hb d ((hold d hd).mp hz)
        simpa [WillWake,setChild,hd] using this
    · by_cases hd : d = c
      · subst hd
        exact .inl (by simp [setChild,hrest])
      · simpa [setChild,hd] using h.order d
  · rename_i rest htodo
    rw [htodo] at ho
    have hrest := order_of_cons ho
    split
    · refine h.advance rfl rfl (.inl (by simp [hrest])) fun hb _ => .inr ?_
      rw [hb]
      exact List.mem_cons_self
    · rename_i hp
      exact h.advance rfl rfl (.inl hrest) fun hb => absurd (.inr hb) hp
  · rename_i seen rest htodo
    rw [htodo] at ho
    have hrest := order_of_cons ho
    have hchild : (s.wake seen).child = s.child := by
      rw [Family.wake]
      split <;> rfl
    refine (h.wake seen).advance (by rw [hchild]) (by rw [hchild]) (.inl hrest) fun hb hw => ?_
    -- a parent still blocked was not in the state seen
    have hseen : seen ≠ .blocked := by
      rintro rfl
      rw [Family.wake] at hb
      split at hb
      · cases hb
      · contradiction
    rw [WillWake,hchild,htodo] at hw
    rcases hw with hw | hw
    · exact .inl (by simpa using hw)
    · exact .inr (by simpa [Ne.symm hseen] using hw)
  · rename_i rest htodo
    rw [htodo] at ho
    have := h.advance (c := c) (x := { s.child c with todo := rest }) rfl rfl
      (.inl (order_of_cons ho)) fun _ hw => by
        rw [WillWake,htodo] at hw
        simpa using hw
    exact ⟨this.looked,this.away,this.woken,this.order⟩

theorem step_inv (e : Event) (h : Inv s) (ht : s.Timely e) : Inv (s.step e) := by
  cases e with
  | call target nohang =>
    rw [step]
    split
    · rename_i hc
      refine .of_awake (by rw [hc.1]; decide) h.order fun c hp hz => ?_
      exact hp hz.1
    · exact h
  | look =>
    rw [step]
    split
    · rename_i todo hpc
      split
      · exact h.lookNext ‹_› hpc
      · exact h
    · exact h
  | check | test =>
    rw [step]
    split
    · rename_i hc
      exact .of_awake (by rw [hc.1]; decide) h.order fun c _ => h.looked c (by rw [Passed,hc.2]; trivial)
    · exact h
  | block =>
    rw [step]
    split
    · rename_i hc
      refine ⟨fun c hp => hp.elim,fun _ => rfl,fun _ c hz => ?_,h.order⟩
      exact absurd hz (h.looked c (by rw [Passed,hc.2]; trivial))
    · exact h
  | preempt =>
    rw [step]
    split
    · exact .of_awake nofun h.order h.looked
    · exact h
  | resume =>
    rw [step]
    split
    · refine .of_awake nofun h.order fun c hp hz => ?_
      by_cases hpc : s.pc = .away
      · rw [Passed] at hp
        simp only [hpc,if_true] at hp
        exact hp hz.1
      · refine h.looked c ?_ hz
        rw [Passed] at hp ⊢
        simpa only [hpc,if_false] using hp
    · exact h
  | fork c =>
    rw [step]
    split
    · rename_i hc
      refine .of_awake (by simp [setChild,hc.1]) (fun d => ?_) fun d hp => ?_
      · by_cases hd : d = c
        · subst hd
          exact .inl (by simp [setChild])
        · simpa [setChild,hd] using h.order d
      · simp [Passed,setChild,hc.2.1] at hp
    · exact h
  | ends c fatal =>
    rw [step]
    split
    · rename_i hc
      refine h.advance rfl rfl ?_ fun _ hw => ?_
      · cases fatal
        · exact .inr ⟨[.signal,.load,.load],rfl,by decide⟩
        · exact .inr ⟨[],rfl,by decide⟩
      · rw [WillWake,hc.2.1] at hw
        simp at hw
    · exact h
  | childStep c => exact h.exitStep ht
  | signalled =>
    rw [step]
    dsimp only
    split
    · exact .of_awake nofun h.order h.looked
    · exact ⟨h.looked,h.away,h.woken,h.order⟩
  | deliver | sigentry | sigreturn =>
    rw [step]
    split
    · exact ⟨h.looked,h.away,h.woken,h.order⟩
    · exact h

/-- A parent in user mode whose children all live. -/
def Fresh (s : Family) : Prop :=
  s.parent ≠ .blocked ∧ s.pc = .user ∧ ∀ c, (s.child c).todo = []

theorem Fresh.inv (h : Fresh s) : Inv s :=
  .of_awake h.1 (fun c => .inl (by simp [h.2.2 c])) fun c hp => by simp [Passed,h.2.1] at hp

/-- If no child dies while its parent is between the look at it and blocking, no wakeup is
lost. -/
theorem no_lost_wakeup (s : Family) (hs : Fresh s) (es : List Event) (ht : Along step Timely s es) :
    ¬(s.run es).Lost :=
  (ht.invariant (fun _ e hi h => step_inv e hi h) hs.inv).not_lost

def pair : Family where
  parent := .running
  pc := .user
  target := none
  nohang := false
  sigEntry := false
  sigInDelivery := false
  pending := false
  children := [7]
  child _ := ⟨[],false,false⟩

theorem fresh_pair : Fresh pair := ⟨nofun,rfl,fun _ => rfl⟩

/-- The child dies when its parent is blocked. -/
def inTime : List Event :=
  [.call none false,.look,.look,.check,.test,.block,.ends 7 false,.childStep 7]

theorem no_lost_wakeup_inTime : (pair.run inTime).parent = .blocked ∧ ¬(pair.run inTime).Lost :=
  ⟨by decide,no_lost_wakeup pair fresh_pair inTime (by decide)⟩

/-- The child does all its steps after the parent has looked at it, and before it blocks. -/
def tooEarly : List Event :=
  [.call none false,.look,.look,.check,.test,.ends 7 false,.childStep 7,.childStep 7,.childStep 7,
    .childStep 7,.childStep 7,.block]

theorem wakeup_lost : Fresh pair ∧ (pair.run tooEarly).Lost := by
  refine ⟨fresh_pair,by decide,by decide,⟨7,by decide,by decide,by decide,by decide⟩,fun c => ?_⟩
  have htodo : ((pair.run tooEarly).child c).todo = [] := by
    by_cases hc : c = 7
    · subst hc
      decide
    · simp [tooEarly,run,step,pair,lookNext,exitStep,setChild,waitsFor,hasDeliverable,exitProgram,hc]
  rw [WillWake,htodo]
  simp

end Miku.Sched.Family
