import Miku.Lib.Run
import Miku.Proofs.OpenFiles

namespace Miku.Vfs
open Lib MikuVfs List

variable {s u : MikuVfs} {c : Ctx} {id pid fd : Nat}

/-- The parts of calls, as descriptors see them. `ended` are the descriptors that the call
closes. -/
inductive Move (ended : Nat → Nat → Prop) : MikuVfs → MikuVfs → Prop
  | quiet {s t : MikuVfs} (h : Quiet s t) : Move ended s t
  | add {s : MikuVfs} {pid fd : Nat} {f : OpenFile} (hn : s.fdTables pid fd = none)
      (hfd : fd < maxOpenFiles) (hv : s.validVnode f.vnodeId = true)
      (hc : (s.nodes f.vnodeId).refcount < 65535) : Move ended s (addFd s pid fd f)
  | drop {s : MikuVfs} {pid fd : Nat} {f : OpenFile} (hf : s.fdTables pid fd = some f)
      (he : ended pid fd) : Move ended s (dropFd s pid fd f)
  | fork {s : MikuVfs} {parent child : Nat} (hn : ∀ fd, s.fdTables child fd = none)
      (hb : ∀ id, (s.nodes id).refcount + (s.openNodes parent).count id ≤ 65535) :
      Move ended s (forkFds s parent child)
  | exit {s : MikuVfs} {pid : Nat} (he : ∀ fd, ended pid fd) : Move ended s (releaseFdsOnExit s pid)

variable {ended : Nat → Nat → Prop}

theorem Stable.move (h : Stable s) (hm : Move ended s t) : Stable t := by
  cases hm with
  | quiet hq => exact h.quiet hq
  | add hn hfd hv hc => exact h.add hn hfd hv hc
  | drop hf he => exact h.drop hf
  | fork hn hb => exact h.fork hn hb
  | exit he => exact h.exit

/-- The descriptor is on the given file: a node, and which of the files that it was. -/
def OnFile (s : MikuVfs) (pid fd id gen : Nat) : Prop :=
  s.refs (pid,fd) = some id ∧ s.generation id = gen

theorem releaseRef_fixed :
    (releaseRef s id).generation = s.generation ∧ (releaseRef s id).fdTables = s.fdTables := by
  unfold releaseRef
  dsimp only
  split
  · split <;> exact ⟨rfl,rfl⟩
  · exact ⟨rfl,rfl⟩

variable {f : OpenFile}

theorem refs_dropFd (hp : p ≠ (pid,fd)) : (dropFd s pid fd f).refs p = s.refs p := by
  unfold dropFd MikuVfs.refs
  rw [releaseRef_fixed.2]
  exact refs_setFd.trans (if_neg hp)

theorem OnFile.move (h : OnFile s pid fd id gen) (hs : Stable s) (hm : Move ended s t)
    (he : ¬ ended pid fd) : OnFile t pid fd id gen := by
  obtain ⟨hr,hg⟩ := h
  have hv := hs.live _ _ hr
  simp only [validVnode,Bool.and_eq_true] at hv
  cases hm with
  | quiet hq => exact ⟨(hq.refs _).trans hr,(hq.same id hv.2 (hs.pos hr)).trans hg⟩
  | @add q e f hn hfd hv hc =>
    have hne : (pid,fd) ≠ (q,e) := by
      rintro ⟨⟩
      rw [MikuVfs.refs,hn] at hr
      cases hr
    exact ⟨(refs_setFd.trans (if_neg hne)).trans hr,hg⟩
  | @drop q e f hf hq =>
    have hne : (pid,fd) ≠ (q,e) := by
      rintro ⟨⟩
      exact he hq
    refine ⟨(refs_dropFd hne).trans hr,?_⟩
    unfold dropFd
    rw [releaseRef_fixed.1]
    exact hg
  | @fork parent child hn hb =>
    have hne : pid ≠ child := by
      rintro rfl
      rw [MikuVfs.refs,hn] at hr
      cases hr
    have hg' : (forkFds s parent child).generation = s.generation := foldl_touch_rest.2.1
    refine ⟨?_,by rw [hg',hg]⟩
    rw [← hr]
    simp [MikuVfs.refs,forkFds,hne]
  | @exit q hq =>
    have hne : pid ≠ q := by
      rintro rfl
      exact he (hq fd)
    have hrest := foldl_touch_rest (g := VNode.decRef) (l := s.openNodes q)
      (s := { s with fdTables := Function.update s.fdTables q fun _ => none })
    refine ⟨?_,(congrFun hrest.2.1 id).trans hg⟩
    have ht : (releaseFdsOnExit s q).fdTables = Function.update s.fdTables q fun _ => none := hrest.1
    rw [← hr,MikuVfs.refs,ht]
    simp [MikuVfs.refs,hne]

/-- The descriptors that a call is asked to close. -/
def Ends : Call → Nat → Nat → Prop
  | .close c fd, q, e => q = c.pid ∧ e = fd
  | .dup2 c _ newFd, q, e => q = c.pid ∧ e = newFd
  | .exit pid, q, _ => q = pid
  | _, _, _ => False

/-- What the accounting rests on: no descriptor is on a directory that is removed, only
nodes in use are opened, counts stay below their limit and a child starts without
descriptors. -/
def Careful (s : MikuVfs) : Call → Prop
  | .rmdir _ cwd path => ∀ id, s.resolvePath cwd path = .ok id → (s.nodes id).refcount = 0
  | .open _ cwd path flags _ => ∀ id, openLookup s cwd path flags = .ok id →
      s.validVnode id = true ∧ (s.nodes id).refcount < 65535
  | .dup c oldFd => ∀ f, s.getFd c.pid oldFd = .ok f → (s.nodes f.vnodeId).refcount < 65535
  | .dup2 c oldFd _ => ∀ f, s.getFd c.pid oldFd = .ok f → (s.nodes f.vnodeId).refcount < 65535
  | .fork parent child => (∀ fd, s.fdTables child fd = none) ∧
      ∀ id, (s.nodes id).refcount + (s.openNodes parent).count id ≤ 65535
  | _ => True

theorem getFd_ok (h : s.getFd pid fd = .ok f) : s.fdTables pid fd = some f ∧ fd < maxOpenFiles := by
  unfold getFd at h
  split at h
  · rename_i hlt
    split at h
    · cases h
      exact ⟨by assumption,hlt⟩
    · cases h
  · cases h

theorem freeFd_spec (h : s.freeFd pid = some fd) : s.fdTables pid fd = none ∧ fd < maxOpenFiles := by
  have hm := mem_range'_1.mp (mem_of_find?_eq_some h)
  have hn := find?_some h
  refine ⟨by simpa using hn,?_⟩
  have : reservedStdioFds = 3 := rfl
  have : maxOpenFiles = 128 := rfl
  omega

theorem wp_openExisting (hv : s.validVnode id = true) (hc : (s.nodes id).refcount < 65535) :
    Wp (openExisting c flags id) s
      (fun j t => Quiet s t ∧ t.validVnode j = true ∧ (t.nodes j).refcount < 65535)
      (fun _ t => Quiet s t) := by
  refine .look Quiet.refl fun _ _ => ?_
  refine .look Quiet.refl fun _ _ => ?_
  refine .bind (.check (fun _ => ?_) fun _ => Quiet.refl)
  refine .look Quiet.refl fun _ _ => ?_
  refine .bind (.modify (.pure ?_))
  split
  · refine ⟨quiet_pageCache.trans (quiet_mapNode rfl fun h _ => h),?_,?_⟩
    · simpa [truncateFile,validVnode,mapNode,setNode,freeFilePages] using hv
    · simpa [truncateFile,mapNode,setNode,freeFilePages] using hc
  · exact ⟨Quiet.refl,hv,hc⟩

theorem resolveOrCreate_of {Q : Nat → MikuVfs → Prop} {E : VfsError → MikuVfs → Prop}
    (hfail : ∀ e, E e s)
    (hfound : ∀ id, openLookup s cwd path flags = .ok id → Wp (openExisting c flags id) s Q E)
    (hnew : flags.has OpenFlags.create = true → ∀ parent name, Wp (createFile c parent name mode) s Q E) :
    Wp (resolveOrCreate c cwd path flags mode) s Q E := by
  unfold Wp resolveOrCreate at *
  cases hl : openLookup s cwd path flags with
  | ok id => exact hfound id hl
  | error e =>
    by_cases hn : e = .notFound
    · subst hn
      by_cases hcr : flags.has OpenFlags.create = true
      · simp only [hcr,↓reduceIte]
        cases s.splitPath cwd path with
        | error e => exact hfail e
        | ok r => exact hnew hcr r.1 r.2
      · simp only [hcr,↓reduceIte,Bool.false_eq_true]
        exact hfail _
    · cases e <;> first | exact absurd rfl hn | exact hfail _

theorem wp_resolveOrCreate
    (hb : s.vnodeFreeHint ≤ maxVnodes) (h : Careful s (.open c cwd path flags mode)) :
    Wp (resolveOrCreate c cwd path flags mode) s
      (fun j t => Quiet s t ∧ t.validVnode j = true ∧ (t.nodes j).refcount < 65535)
      (fun _ t => Quiet s t) := by
  refine resolveOrCreate_of (fun _ => .refl) (fun id hl => wp_openExisting (h id hl).1 (h id hl).2)
    fun _ parent name => wp_createFile.mono ?_
  rintro j t ⟨hq,⟨ha,hz⟩,hlt⟩
  refine ⟨hq,?_,by omega⟩
  simp only [validVnode,ha,Bool.and_true,decide_eq_true_eq]
  exact hlt hb

theorem wp_fdAlloc {Q : Nat → MikuVfs → Prop} {E : VfsError → MikuVfs → Prop}
    (hnone : s.freeFd c.pid = none → E .tooManyOpenFiles s)
    (hsome : ∀ fd, s.freeFd c.pid = some fd → Q fd (s.setFd c.pid fd (some ⟨id,flags,offset⟩))) :
    Wp (fdAlloc c id flags offset) s Q E := by
  unfold Wp fdAlloc
  split
  · rename_i hf
    split at hf <;> cases hf
    exact hsome _ ‹_›
  · rename_i hf
    split at hf <;> cases hf
    exact hnone ‹_›

/-- A run of such parts. -/
abbrev Moves (ended : Nat → Nat → Prop) := Relation.ReflTransGen (Move ended)

theorem Moves.of_quiet (h : Quiet s t) : Moves ended s t := .single (.quiet h)

theorem Stable.moves (h : Stable s) (hm : Moves ended s t) : Stable t := by
  induction hm with
  | refl => exact h
  | tail _ hm ih => exact ih.move hm

theorem OnFile.moves (h : OnFile s pid fd id gen) (hs : Stable s) (hm : Moves ended s t)
    (he : ¬ ended pid fd) : OnFile t pid fd id gen := by
  induction hm with
  | refl => exact h
  | tail hp hm ih => exact ih.move (hs.moves hp) hm he

theorem Moves.step {α β : Type} {x : VfsM α} {g : α → β} (h : Moves ended s (final x s)) :
    Moves ended s (final (x >>= fun a => pure (g a)) s) := by
  rw [final_bind_pure]
  exact h

theorem moves_open (hs : Stable s) (h : Careful s (.open c cwd path flags mode)) :
    Moves ended s (final (Vfs.open c cwd path flags mode) s) := by
  refine Wp.final (.bind ((wp_resolveOrCreate hs.hint h).imp ?_ fun _ _ hq => Moves.of_quiet hq))
  rintro id t ⟨hq,hv,hc⟩
  refine .look (Moves.of_quiet hq) fun _ _ => ?_
  refine .bind (wp_fdAlloc (fun _ => .of_quiet hq) fun fd hf => ?_)
  obtain ⟨hn,hlt⟩ := freeFd_spec hf
  refine .bind (.modify (.pure ?_))
  exact (Moves.of_quiet hq).tail (.add (f := ⟨id,flags,0⟩) hn hlt hv hc)

theorem moves_close (he : ended c.pid fd) : Moves ended s (final (close c fd) s) := by
  unfold close
  cases hf : s.getFd c.pid fd with
  | error e =>
    simp only [final_reads_bind,hf]
    exact .refl
  | ok f =>
    simp only [final_reads_bind,hf]
    exact .single (.drop (getFd_ok hf).1 he)

theorem moves_dup (hs : Stable s) (h : Careful s (.dup c oldFd)) :
    Moves ended s (final (dup c oldFd) s) := by
  unfold dup
  cases hf : s.getFd c.pid oldFd with
  | error e =>
    simp only [final_reads_bind,hf]
    exact .refl
  | ok f =>
    simp only [final_reads_bind,hf]
    have hr : s.refs (c.pid,oldFd) = some f.vnodeId := by rw [MikuVfs.refs,(getFd_ok hf).1]; rfl
    have hv := hs.live _ _ hr
    cases hfd : s.freeFd c.pid with
    | none =>
      rw [final_bind_of_error (e := .tooManyOpenFiles) (t := s) (by simp [fdAlloc,hfd])]
    | some fd =>
      rw [final_bind_of_ok (a := fd) (t := s.setFd c.pid fd (some f)) (by simp [fdAlloc,hfd])]
      obtain ⟨hn,hlt⟩ := freeFd_spec hfd
      have hretain : retain (s.setFd c.pid fd (some f)) f.vnodeId = addFd s c.pid fd f := if_pos hv
      have hm : Moves ended s (addFd s c.pid fd f) := .single (.add hn hlt hv (h f hf))
      rw [← hretain] at hm
      exact hm

theorem refcount_dropFd_le : ((dropFd s pid fd f).nodes j).refcount ≤ (s.nodes j).refcount := by
  unfold dropFd releaseRef
  split
  · have hq : Quiet ((s.setFd pid fd none).mapNode f.vnodeId VNode.decRef) _ :=
      @quiet_freeIfUnused _ f.vnodeId
    have hle : ((((s.setFd pid fd none).mapNode f.vnodeId VNode.decRef)).nodes j).refcount ≤
        (s.nodes j).refcount := by
      by_cases hj : j = f.vnodeId
      · subst hj
        simp [mapNode,setNode,setFd,VNode.decRef]
      · simp [mapNode,setNode,setFd,hj]
    rcases hq.count j with he | ⟨-,hz⟩
    · exact he.trans_le hle
    · exact hz.trans_le (Nat.zero_le _)
  · exact .refl

/-- What `dup_to` does first: afterwards the descriptor is free. -/
theorem dupTo_closed (hlt : newFd < maxOpenFiles) (he : ended c.pid newFd) :
    Moves ended s (final (close c newFd) s) ∧ (final (close c newFd) s).fdTables c.pid newFd = none ∧
      (∀ p, p ≠ (c.pid,newFd) → (final (close c newFd) s).refs p = s.refs p) ∧
      ∀ j, ((final (close c newFd) s).nodes j).refcount ≤ (s.nodes j).refcount := by
  refine ⟨moves_close he,?_⟩
  unfold close
  cases hf : s.getFd c.pid newFd with
  | error e =>
    have hx : final (reads (fun s : MikuVfs => s.getFd c.pid newFd) >>= fun f =>
        modify fun s => releaseRef (s.setFd c.pid newFd none) f.vnodeId) s = s := by
      simp [final_reads_bind,hf]
    rw [hx]
    refine ⟨?_,fun _ _ => rfl,fun _ => .refl⟩
    unfold getFd at hf
    rw [if_pos hlt] at hf
    split at hf
    · cases hf
    · assumption
  | ok f =>
    simp only [final_reads_bind,hf]
    refine ⟨?_,fun p hp => refs_dropFd hp,fun j => refcount_dropFd_le⟩
    show (releaseRef (s.setFd c.pid newFd none) f.vnodeId).fdTables c.pid newFd = none
    rw [releaseRef_fixed.2]
    simp [setFd]

theorem moves_dup2 (hs : Stable s) (h : Careful s (.dup2 c oldFd newFd))
    (he : ended c.pid newFd) : Moves ended s (final (sysDup2 c oldFd newFd) s) := by
  unfold sysDup2
  split
  · exact .refl
  rename_i hne
  unfold dupTo
  cases hf : s.getFd c.pid oldFd with
  | error e =>
    simp only [final_reads_bind,hf]
    exact .refl
  | ok f =>
    simp only [final_reads_bind,hf]
    rw [final_modify_bind]
    by_cases hlt : newFd < maxOpenFiles
    · obtain ⟨hm,hn,hr,hle⟩ := dupTo_closed (s := s) hlt he
      generalize final (close c newFd) s = u at *
      have hu := hs.moves hm
      have hold : u.refs (c.pid,oldFd) = some f.vnodeId := by
        rw [hr _ (by rintro ⟨⟩; exact hne rfl),MikuVfs.refs,(getFd_ok hf).1]
        rfl
      have hv := hu.live _ _ hold
      rw [final_bind_of_ok (a := ⟨⟩) (t := u.setFd c.pid newFd (some f))
        (by simp only [fdAllocAt,Nat.not_le.mpr hlt,hn,↓reduceIte,Option.isSome_none,Bool.false_eq_true])]
      have hretain : retain (u.setFd c.pid newFd (some f)) f.vnodeId = addFd u c.pid newFd f := if_pos hv
      have := hm.tail (Move.add hn hlt hv (Nat.lt_of_le_of_lt (hle _) (h f hf)))
      rw [← hretain] at this
      exact this
    · rw [final_bind_of_error (e := .badFd) (t := final (close c newFd) s)
        (by simp only [fdAllocAt,Nat.not_lt.mp hlt,↓reduceIte])]
      exact moves_close he

theorem moves_step {o : Call} (hs : Stable s) (h : Careful s o) : Moves (Ends o) s (step s o) := by
  cases o with
  | create c parent name mode =>
    exact .of_quiet (calm_createFile.step)
  | mkdir c parent name mode => exact .of_quiet (calm_mkdir.step)
  | symlink c parent linkname target => exact .of_quiet (calm_symlink.step)
  | link c cwd existing newParent newName => exact .of_quiet (calm_link.step)
  | unlink c cwd path => exact .of_quiet (calm_unlink.step)
  | rmdir c cwd path => exact .of_quiet ((calm_rmdir h).step)
  | rename c cwd old newPath => exact .of_quiet (calm_rename.step)
  | «open» c cwd path flags mode => exact (moves_open hs h).step
  | close c fd => exact (moves_close ⟨rfl,rfl⟩).step
  | dup c oldFd => exact (moves_dup hs h).step
  | dup2 c oldFd newFd => exact (moves_dup2 hs h ⟨rfl,rfl⟩).step
  | fork parent child => exact .single (.fork h.1 h.2)
  | exit pid => exact .single (.exit fun _ => rfl)
  | read c fd n => exact .of_quiet (calm_read.step)
  | write c fd data => exact .of_quiet (calm_write.step)
  | seek c fd whence => exact .of_quiet (calm_seek.step)
  | readAt id offset n => exact .of_quiet (calm_readAtVnode.step)
  | writeAt id offset data => exact .of_quiet (calm_writeAtVnode.step)
  | truncateTo id newSize => exact .of_quiet quiet_truncateTo
  | truncate c fd length => exact .of_quiet (calm_sysTruncate.step)

/-- Before the first call nothing is open. -/
structure Booted (s : MikuVfs) : Prop where
  closed : ∀ pid fd, s.fdTables pid fd = none
  free : ∀ id, (s.nodes id).refcount = 0
  hint : s.vnodeFreeHint ≤ maxVnodes

theorem Booted.stable (h : Booted s) : Stable s := by
  have hr : ∀ p, s.refs p = none := fun p => by rw [MikuVfs.refs,h.closed,Option.map_none]
  refine ⟨fun _ _ _ => hr _,fun p id hp => ?_,fun id => ?_,h.hint⟩
  · rw [hr] at hp
    cases hp
  · have he : s.descriptors id = ∅ := by
      refine Set.eq_empty_of_forall_notMem fun p hp => ?_
      have : s.refs p = some id := hp
      rw [hr] at this
      cases this
    rw [he,h.free,Set.encard_empty]
    rfl

theorem Stable.run (h : Stable s) (ha : Along step Careful s os) : Stable (Vfs.run s os) :=
  ha.invariant (fun _ _ hs hc => hs.moves (moves_step hs hc)) h

theorem OnFile.run (h : OnFile s pid fd id gen) (hs : Stable s)
    (ha : Along step Careful s os) (he : ∀ o ∈ os, ¬ Ends o pid fd) :
    OnFile (Vfs.run s os) pid fd id gen := by
  induction os generalizing s with
  | nil => exact h
  | cons o os ih =>
    have hm := moves_step hs ha.1
    exact ih (h.moves hs hm (he o mem_cons_self)) (hs.moves hm) ha.2
      fun o' ho' => he o' (mem_cons_of_mem _ ho')

/-- Wherever a careful run gets to, descriptors are on nodes in use and nodes count the
descriptors on them; and a descriptor that no call of the rest of the run closes stays on
its file. -/
theorem descriptors_stable (s : MikuVfs) (hs : Booted s) (os os' : List Call)
    (h : Along step Careful s (os ++ os')) :
    (∀ pid fd f, (run s os).fdTables pid fd = some f → (run s os).validVnode f.vnodeId = true) ∧
    (∀ id, ((run s os).descriptors id).encard = ((run s os).nodes id).refcount) ∧
    ∀ pid fd f, (run s os).fdTables pid fd = some f → (∀ o ∈ os', ¬ Ends o pid fd) →
      ∃ f', (run s (os ++ os')).fdTables pid fd = some f' ∧ f'.vnodeId = f.vnodeId ∧
        (run s (os ++ os')).generation f.vnodeId = (run s os).generation f.vnodeId := by
  obtain ⟨ha,ha'⟩ := h.split
  have hm : Stable (run s os) := hs.stable.run ha
  have href : ∀ pid fd f, (run s os).fdTables pid fd = some f →
      (run s os).refs (pid,fd) = some f.vnodeId := fun pid fd f hf => by
    rw [MikuVfs.refs,hf,Option.map_some]
  refine ⟨fun pid fd f hf => hm.live _ _ (href pid fd f hf),hm.counted,fun pid fd f hf he => ?_⟩
  have hon : OnFile (run s os) pid fd f.vnodeId _ := ⟨href pid fd f hf,rfl⟩
  obtain ⟨hr,hg⟩ := hon.run hm ha' he
  rw [run_append]
  obtain ⟨f',hf',hid⟩ := Option.map_eq_some_iff.mp hr
  exact ⟨f',hf',hid,hg⟩

theorem booted_bare : Booted bare := by
  refine ⟨fun _ _ => rfl,fun id => ?_,by decide⟩
  unfold bare
  dsimp only
  split <;> rfl

/-- The kernel, without a device at hand. -/
def kernel : Ctx := ⟨0,Credentials.root,0,.error .ioError⟩

/-- The root directory is opened, and the descriptor is copied. -/
theorem descriptors_stable_copy :
    ((run bare [.open kernel 0 ['/'] ⟨OpenFlags.read⟩ 0]).descriptors 0).encard = (1 : Nat) ∧
    ∃ f, (run bare ([.open kernel 0 ['/'] ⟨OpenFlags.read⟩ 0] ++ [.dup kernel 3])).fdTables 0 3 =
      some f ∧ f.vnodeId = 0 := by
  have hl : openLookup bare 0 ['/'] ⟨OpenFlags.read⟩ = .ok 0 := rfl
  have hf : (run bare [.open kernel 0 ['/'] ⟨OpenFlags.read⟩ 0]).fdTables 0 3 =
    some ⟨0,⟨OpenFlags.read⟩,0⟩ := rfl
  have h : Along step Careful bare ([.open kernel 0 ['/'] ⟨OpenFlags.read⟩ 0] ++ [.dup kernel 3]) := by
    refine ⟨fun id hid => ?_,fun f hd => ?_,trivial⟩
    · rw [hl] at hid
      cases hid
      decide
    · have hid : f.vnodeId = 0 := by
        have := (getFd_ok hd).1.symm.trans hf
        cases this
        rfl
      rw [hid]
      decide +kernel
  obtain ⟨-,hc,hk⟩ := descriptors_stable bare booted_bare _ _ h
  refine ⟨hc 0,?_⟩
  obtain ⟨f,hf,hid,-⟩ := hk 0 3 _ hf fun o ho => by
    cases mem_singleton.mp ho
    exact id
  exact ⟨f,hf,hid⟩

def openDir : List Call := [.mkdir kernel 0 ['a'] 0o755,.open kernel 0 ['a'] ⟨OpenFlags.read⟩ 0]

def replaceDir : List Call := [.rmdir kernel 0 ['a'],.create kernel 0 ['b'] 0o644]

/-- A directory is opened and removed. The next file gets its node, and with it the
descriptor, which that file does not count. -/
theorem removed_directory_recycled : Booted bare ∧ (∀ o ∈ replaceDir, ¬ Ends o 0 3) ∧
    (run bare openDir).refs (0,3) = some 1 ∧ (run bare openDir).generation 1 = 1 ∧
    (run bare (openDir ++ replaceDir)).refs (0,3) = some 1 ∧
    (run bare (openDir ++ replaceDir)).generation 1 = 2 ∧
    ((run bare (openDir ++ replaceDir)).nodes 1).name = ['b'] ∧
    ((run bare (openDir ++ replaceDir)).nodes 1).refcount = 0 := by
  refine ⟨booted_bare,?_,?_⟩
  · intro o ho
    simp only [replaceDir,mem_cons,not_mem_nil,or_false] at ho
    rcases ho with rfl | rfl
    · exact fun h => h
    · exact fun h => h
  · decide +kernel

end Miku.Vfs
