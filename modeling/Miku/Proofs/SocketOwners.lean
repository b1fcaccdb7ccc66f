import Miku.Lib.Run
import Miku.Net.Tcp

namespace Miku.Net.Sockets
open Lib Function

variable {s t : Sockets} {pid i : Nat} {sl : Slot}

/-- Every connection is in the slot of the process and descriptor that asked for it, and every
process has used only its own. -/
structure Owned (s : Sockets) : Prop where
  stored : ∀ i c, (s.slots i).tcp = some c → s.ownedBy i c.pid ∧ c.idx = i ∧ c.gen = s.gen i
  used : ∀ u ∈ s.used, u.2.pid = u.1

/-- A process ends when it is in no call. -/
def Orderly (s : Sockets) : SockEvent → Prop
  | .exit pid => s.pc pid = .idle
  | _ => True

instance instDecidableOrderly : (e : SockEvent) → Decidable (s.Orderly e)
  | .exit _ => inferInstanceAs (Decidable (_ = _))
  | .socket .. | .begin .. | .next .. => .isTrue trivial

/-- What a process counts on between two sections of a call. -/
def Keeps (s : Sockets) (pid : Nat) : Pc → Prop
  | .idle | .accepted => True
  | .checked _ i | .stream i | .accepting i _ _ => s.ownedBy i pid
  | .connecting i g | .parking i g => s.ownedBy i pid ∧ s.gen i = g
  | .holding i g c => s.ownedBy i pid ∧ s.gen i = g ∧ c = ⟨pid,i,g⟩

structure Inv (s : Sockets) : Prop extends Owned s where
  keeps : ∀ pid, s.Keeps pid (s.pc pid)

variable {pc : Pc}

/-- A process keeps what it counts on as long as it keeps its sockets. -/
theorem Keeps.mono (h : ∀ i, s.ownedBy i q → t.ownedBy i q ∧ t.gen i = s.gen i)
    (hk : s.Keeps q pc) : t.Keeps q pc := by
  cases pc with
  | idle | accepted => trivial
  | checked _ i | stream i | accepting i _ _ => exact (h i hk).1
  | connecting i g | parking i g => exact ⟨(h i hk.1).1,(h i hk.1).2.trans hk.2⟩
  | holding i g c => exact ⟨(h i hk.1).1,(h i hk.1).2.trans hk.2.1,hk.2.2⟩

/-- A section of one process leaves the sockets of the others alone. -/
structure Acts (s t : Sockets) (pid : Nat) : Prop where
  pc : ∀ q, q ≠ pid → t.pc q = s.pc q
  slots : ∀ i q, q ≠ pid → s.ownedBy i q → t.slots i = s.slots i ∧ t.gen i = s.gen i

theorem Acts.owned (h : Acts s t pid) (hq : q ≠ pid) (ho : s.ownedBy i q) :
    t.ownedBy i q ∧ t.gen i = s.gen i := by
  obtain ⟨hs,hg⟩ := h.slots i q hq ho
  rw [ownedBy,hs]
  exact ⟨ho,hg⟩

theorem Acts.keeps (h : Acts s t pid) (hk : ∀ q, s.Keeps q (s.pc q))
    (hself : t.Keeps pid (t.pc pid)) (q : Nat) : t.Keeps q (t.pc q) := by
  by_cases hq : q = pid
  · subst hq
    exact hself
  · rw [h.pc q hq]
    exact (hk q).mono fun i ho => h.owned hq ho

theorem owner_unique (h : s.ownedBy i pid) (h' : s.ownedBy i q) : q = pid := by
  simp only [ownedBy,Bool.and_eq_true,beq_iff_eq] at h h'
  exact h'.2.symm.trans h.2

section

variable (h : Inv s)
include h

theorem Inv.goto (hk : s.Keeps pid pc) : Inv (s.goto pid pc) := by
  have ha : Acts s (s.goto pid pc) pid := ⟨fun q hq => update_of_ne hq ..,fun _ _ _ _ => ⟨rfl,rfl⟩⟩
  refine ⟨⟨h.stored,h.used⟩,ha.keeps h.keeps ?_⟩
  have hpc : (s.goto pid pc).pc pid = pc := update_self ..
  rw [hpc]
  cases pc <;> exact hk

/-- The process changes its own slot, and uses connections it asked for. -/
theorem Inv.write (us : List (Nat × Endpoint)) (ho : s.ownedBy i pid)
    (htcp : ∀ c, sl.tcp = some c → sl.active ∧ sl.ownerPid = c.pid ∧ c.idx = i ∧ c.gen = s.gen i)
    (hus : ∀ u ∈ us, u.1 = pid ∧ u.2.pid = pid) (hk : (s.setSlot i sl).Keeps pid pc) :
    Inv { (s.setSlot i sl).goto pid pc with used := us ++ s.used } := by
  have hother : ∀ j, j ≠ i → update s.slots i sl j = s.slots j := fun j hj =>
    update_of_ne hj ..
  refine ⟨⟨fun j c hc => ?_,fun u hu => ?_⟩,?_⟩
  · by_cases hj : j = i
    · subst hj
      have hc' : sl.tcp = some c := by simpa [Sockets.goto,setSlot] using hc
      obtain ⟨ha,hown,hidx,hgen⟩ := htcp c hc'
      exact ⟨by simp [ownedBy,Sockets.goto,setSlot,ha,hown],hidx,hgen⟩
    · have hc' : (s.slots j).tcp = some c := by simpa [Sockets.goto,setSlot,hother j hj] using hc
      obtain ⟨hown,hrest⟩ := h.stored j c hc'
      exact ⟨by simpa [ownedBy,Sockets.goto,setSlot,hother j hj] using hown,hrest⟩
  · rcases List.mem_append.mp hu with hu | hu
    · exact (hus u hu).2.trans (hus u hu).1.symm
    · exact h.used u hu
  · have ha : Acts s { (s.setSlot i sl).goto pid pc with used := us ++ s.used } pid := by
      refine ⟨fun q hq => update_of_ne hq ..,fun j q hq hj => ⟨?_,rfl⟩⟩
      refine hother j ?_
      rintro rfl
      exact hq (owner_unique ho hj)
    refine ha.keeps h.keeps ?_
    have hpc : ((s.setSlot i sl).goto pid pc).pc pid = pc := update_self ..
    show Keeps _ pid (((s.setSlot i sl).goto pid pc).pc pid)
    rw [hpc]
    cases pc <;> exact hk

theorem Inv.create (hc : s.create pid kind = some (n,t)) :
    Inv t ∧ t.ownedBy n pid ∧ t.pc = s.pc := by
  simp only [Sockets.create,Option.map_eq_some_iff,Prod.mk.injEq] at hc
  obtain ⟨j,hj,rfl,rfl⟩ := hc
  have hfree : (s.slots j).active = false := by simpa using List.find?_some hj
  have hne : ∀ i q, s.ownedBy i q → i ≠ j := by
    rintro i q ho rfl
    rw [ownedBy,hfree] at ho
    cases ho
  refine ⟨⟨⟨fun i c hc => ?_,h.used⟩,fun q => ?_⟩,by simp [ownedBy,setSlot],rfl⟩
  · by_cases hi : i = j
    · subst hi
      simp [setSlot,Slot.empty] at hc
    · have hc' : (s.slots i).tcp = some c := by simpa [setSlot,hi] using hc
      obtain ⟨hown,hrest⟩ := h.stored i c hc'
      refine ⟨by simpa [ownedBy,setSlot,hi] using hown,hrest.1,?_⟩
      rw [hrest.2]
      exact (update_of_ne hi ..).symm
  · refine (h.keeps q).mono fun i ho => ?_
    have hi := hne i q ho
    exact ⟨by simpa [ownedBy,setSlot,hi] using ho,update_of_ne hi ..⟩

theorem Inv.closeAllForPid (hp : s.pc pid = .idle) : Inv (s.closeAllForPid pid) := by
  have hother : ∀ i q, q ≠ pid → s.ownedBy i q → (s.closeAllForPid pid).slots i = s.slots i := by
    intro i q hq ho
    refine if_neg fun hx => hq (owner_unique ?_ ho)
    simp only [Bool.and_eq_true] at hx
    exact hx.1
  refine ⟨⟨fun i c hc => ?_,h.used⟩,fun q => ?_⟩
  · have hslot : (s.closeAllForPid pid).slots i = s.slots i := by
      by_contra hne
      have hx : (s.ownedBy i pid && decide (i < maxSockets)) = true := by
        by_contra hx
        exact hne (if_neg hx)
      have : (s.closeAllForPid pid).slots i = Slot.empty := if_pos hx
      rw [this] at hc
      cases hc
    rw [hslot] at hc
    obtain ⟨ho,hrest⟩ := h.stored i c hc
    rw [ownedBy,hslot]
    exact ⟨ho,hrest⟩
  · by_cases hq : q = pid
    · subst hq
      have hpc : (s.closeAllForPid q).pc q = .idle := hp
      rw [hpc]
      trivial
    · have hmine : ∀ i, s.ownedBy i q →
          (s.closeAllForPid pid).ownedBy i q ∧ (s.closeAllForPid pid).gen i = s.gen i := by
        refine fun i ho => ⟨?_,rfl⟩
        rw [ownedBy,hother i q hq ho]
        exact ho
      exact (h.keeps q).mono hmine

section

variable (ho : s.ownedBy i pid) (hsl : sl.active = true) (hown : sl.ownerPid = pid)
    (htcp : sl.tcp = (s.slots i).tcp ∨ sl.tcp = none ∨ sl.tcp = some ⟨pid,i,s.gen i⟩)
include ho hsl hown htcp

theorem Inv.stays (c : Endpoint)
    (hc : sl.tcp = some c) : sl.active ∧ sl.ownerPid = c.pid ∧ c.idx = i ∧ c.gen = s.gen i := by
  rcases htcp with ht | ht | ht
  · obtain ⟨ho',hrest⟩ := h.stored i c (ht ▸ hc)
    exact ⟨hsl,hown.trans (owner_unique ho ho').symm,hrest⟩
  · rw [ht] at hc
    cases hc
  · rw [ht] at hc
    cases hc
    exact ⟨hsl,hown,rfl,rfl⟩

/-- A section that changes the state of a socket, or what is in it. -/
theorem Inv.change (hk : s.Keeps pid pc) : Inv ((s.setSlot i sl).goto pid pc) := by
  have hmine : ∀ j, s.ownedBy j pid → (s.setSlot i sl).ownedBy j pid ∧ (s.setSlot i sl).gen j = s.gen j := by
    refine fun j hj => ⟨?_,rfl⟩
    by_cases hji : j = i
    · subst hji
      simp [ownedBy,setSlot,hsl,hown]
    · simpa [ownedBy,setSlot,hji] using hj
  exact h.write [] ho (h.stays ho hsl hown htcp) (by simp) (hk.mono hmine)

end

end

theorem owner_of_ownedBy (h : s.ownedBy i pid) : (s.slots i).active = true ∧ (s.slots i).ownerPid = pid := by
  simpa [ownedBy] using h

theorem next_inv (h : Inv s) : Inv (s.next pid ok) := by
  have hk := h.keeps pid
  have hidle : Inv (s.goto pid .idle) := h.goto trivial
  rw [next]
  cases hpc : s.pc pid with
  | idle => exact h
  | checked call i =>
    rw [hpc] at hk
    have ho : s.ownedBy i pid := hk
    obtain ⟨ha,hown⟩ := owner_of_ownedBy ho
    cases call with
    | bind =>
      dsimp only [bind]
      split
      · exact h.change ho ha hown (.inl rfl) trivial
      · exact hidle
    | listen =>
      dsimp only [listen]
      split
      · exact h.change ho ha hown (.inl rfl) trivial
      · exact hidle
    | accept =>
      dsimp only [acceptTake]
      split
      · split
        · exact h.change ho ha hown (.inl rfl) ho
        · exact hidle
      · exact hidle
    | connect =>
      dsimp only [connectStart]
      split
      · exact h.change ho ha hown (.inl rfl) ⟨ho,rfl⟩
      · exact hidle
    | send | recv =>
      dsimp only [transferStart]
      split
      · exact hidle
      · exact h.goto ho
    | close =>
      dsimp only [closeFd]
      rw [if_pos ha]
      refine h.write _ ho nofun (fun u hu => ?_) trivial
      obtain ⟨c,hc,rfl⟩ := List.mem_map.mp hu
      have hc' := Option.mem_toList.mp hc
      exact ⟨rfl,owner_unique ho (h.stored i c hc').1⟩
  | stream i =>
    rw [hpc] at hk
    have ho : s.ownedBy i pid := hk
    obtain ⟨ha,hown⟩ := owner_of_ownedBy ho
    dsimp only [takeConnected]
    split
    · split
      · next c hc =>
        obtain ⟨hco,hidx,hgen⟩ := h.stored i c hc
        have hcp : c.pid = pid := owner_unique ho hco
        refine h.write [(pid,c)] ho nofun (by simp [hcp]) ⟨?_,rfl,?_⟩
        · simp [ownedBy,setSlot,ha,hown]
        · rw [← hcp,← hgen,← hidx]
      · exact hidle
    · exact hidle
  | connecting i g =>
    rw [hpc] at hk
    obtain ⟨ho,rfl⟩ := hk
    obtain ⟨ha,hown⟩ := owner_of_ownedBy ho
    dsimp only [connectDone]
    split
    · exact hidle
    · split
      · exact h.change ho ha hown (.inr (.inr rfl)) trivial
      · exact h.change ho ha hown (.inl rfl) trivial
  | holding i g c =>
    rw [hpc] at hk
    obtain ⟨ho,rfl,rfl⟩ := hk
    obtain ⟨ha,hown⟩ := owner_of_ownedBy ho
    dsimp only [returnSocket]
    split
    · exact h.change ho ha hown (.inr (.inr rfl)) trivial
    · exact hidle
  | accepting i g l =>
    rw [hpc] at hk
    have ho : s.ownedBy i pid := hk
    obtain ⟨ha,hown⟩ := owner_of_ownedBy ho
    have hnext : ∀ t : Sockets, t.Keeps pid (if ok then .accepted else .idle) := by
      intro t
      cases ok <;> trivial
    dsimp only [acceptReturn]
    split
    · exact h.change ho ha hown (.inl rfl) (hnext s)
    · exact h.goto (hnext s)
  | accepted =>
    dsimp only [acceptCreate]
    cases hc : s.create pid .tcp with
    | none => exact hidle
    | some r =>
      obtain ⟨hi,ho,-⟩ := h.create hc
      exact hi.goto ⟨ho,rfl⟩
  | parking i g =>
    rw [hpc] at hk
    obtain ⟨ho,rfl⟩ := hk
    obtain ⟨ha,hown⟩ := owner_of_ownedBy ho
    refine h.change ho ha hown (.inr (.inr rfl)) ?_
    cases ok with
    | true => trivial
    | false => exact ho

theorem step_inv (h : Inv s) (he : s.Orderly e) : Inv (s.step e) := by
  cases e with
  | socket pid kind =>
    rw [step]
    split
    · cases hc : s.create pid kind with
      | none => exact h
      | some r => exact (h.create hc).1
    · exact h
  | «begin» pid call idx =>
    rw [step]
    split
    · next hc => exact h.goto hc.2.2
    · exact h
  | next pid ok => exact next_inv h
  | exit pid => exact h.closeAllForPid he

theorem inv_booted : Inv booted := ⟨⟨nofun,nofun⟩,fun _ => trivial⟩

/-- If every process ends in no call, each connection stays with the process and descriptor
that asked for it. -/
theorem connections_owned (es : List SockEvent) (he : Along step Orderly booted es) : (booted.run es).Owned :=
  (he.invariant (fun _ _ => step_inv) inv_booted).toOwned

/-- A process connects, sends and ends; then another one gets its slot. -/
def inTurn : List SockEvent :=
  [.socket 1 .tcp,.begin 1 .connect 0,.next 1 true,.next 1 true,.begin 1 .send 0,.next 1 true,.next 1 true,
    .next 1 true,.exit 1,.socket 2 .tcp]

theorem connections_owned_inTurn : (booted.run inTurn).used = [(1,⟨1,0,1⟩)] ∧ (booted.run inTurn).Owned :=
  ⟨by decide,connections_owned inTurn (by decide)⟩

/-- The process is reaped in the middle of its handshake. Its slot goes to another process,
which then sends on the connection that the first one has opened. -/
def reaped : List SockEvent :=
  [.socket 1 .tcp,.begin 1 .connect 0,.next 1 true,.exit 1,.socket 2 .tcp,.next 1 true,.begin 2 .send 0,
    .next 2 true,.next 2 true]

theorem connection_misplaced :
    ¬(booted.run reaped).Owned ∧ (2,⟨1,0,1⟩) ∈ (booted.run reaped).used := by
  have hused : (2,⟨1,0,1⟩) ∈ (booted.run reaped).used := by decide
  exact ⟨fun h => absurd (h.used _ hused) (by decide),hused⟩

end Miku.Net.Sockets
