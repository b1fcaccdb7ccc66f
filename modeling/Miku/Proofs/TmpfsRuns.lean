import Miku.Proofs.Descriptors
import Miku.Proofs.TmpFiles

namespace Miku.Vfs
open Lib MikuVfs Function List Option AddressSpace World

variable {s t : MikuVfs} {id : Nat} {flags : OpenFlags}

/-- Entries and references may differ, what is in the file does not. -/
def SameFile (m n : VNode) : Prop :=
  ∃ children refcount, n = { m with children := children, refcount := refcount }

theorem SameFile.refl {n : VNode} : SameFile n n := ⟨n.children,n.refcount,rfl⟩

theorem SameFile.trans {k n : VNode} (h : SameFile k m) (h' : SameFile m n) : SameFile k n := by
  obtain ⟨_,_,rfl⟩ := h
  obtain ⟨ch,r,rfl⟩ := h'
  exact ⟨ch,r,rfl⟩

structure Blank (n : VNode) : Prop where
  size : n.size = 0
  pages : n.addrSpace = AddressSpace.new
  static : n.staticData = none

theorem Blank.same {n : VNode} (h : Blank m) (hs : SameFile m n) : Blank n := by
  obtain ⟨_,_,rfl⟩ := hs
  exact ⟨h.size,h.pages,h.static⟩

/-- A node that was not in use is an empty file, or still not in use. -/
structure Made (s t : MikuVfs) (id : Nat) : Prop where
  cache : t.pageCache = s.pageCache
  fds : t.fdTables = s.fdTables
  hint : t.vnodeFreeHint ≤ maxVnodes
  idle : (s.nodes id).active = false
  others : ∀ j, j ≠ id → SameFile (s.nodes j) (t.nodes j)
  blank : (t.nodes id).active = true → Blank (t.nodes id)

theorem Made.mapNode {f : VNode → VNode} (h : Made s t id)
    (hf : SameFile (t.nodes parent) (f (t.nodes parent))) : Made s (t.mapNode parent f) id := by
  have hn : ∀ j, SameFile (t.nodes j) ((t.mapNode parent f).nodes j) := by
    intro j
    by_cases hj : j = parent
    · subst hj
      simpa [MikuVfs.mapNode,setNode] using hf
    · simpa [MikuVfs.mapNode,setNode,hj] using SameFile.refl
  refine ⟨h.cache,h.fds,h.hint,h.idle,fun j hj => (h.others j hj).trans (hn j),fun ha => ?_⟩
  obtain ⟨_,_,he⟩ := hn id
  refine (h.blank ?_).same (hn id)
  rw [he] at ha
  exact ha

theorem Made.giveUp (h : Made s t id) : Made s (t.mapNode id fun n => { n with active := false }) id := by
  refine ⟨h.cache,h.fds,h.hint,h.idle,fun j hj => ?_,fun ha => ?_⟩
  · simpa [MikuVfs.mapNode,setNode,hj] using h.others j hj
  · simp [MikuVfs.mapNode,setNode] at ha

theorem initNode_made {n : VNode} (hb : s.vnodeFreeHint ≤ maxVnodes) (h : s.freeVnode = some id)
    (hn : Blank n) : Made s ({ s with vnodeFreeHint := id + 1 }.initNode id n) id := by
  refine ⟨rfl,rfl,freeVnode_lt hb h,freeVnode_inactive h,fun j hj => ?_,fun _ => ?_⟩
  · simpa [initNode,setNode,hj] using SameFile.refl
  · simpa [initNode,setNode] using hn

theorem insertEntry_made (h : Made s t id) :
    Wp (makeNode.insertEntry parent name id) t (fun _ u => Made s u id) (fun _ u => Made s u id) := by
  have hm : ∀ ch, Made s (t.mapNode parent fun n => { n with children := ch }) id :=
    fun ch => h.mapNode ⟨ch,_,rfl⟩
  exact .ite rfl (hm _) (hm _).giveUp

theorem createFile_made (hb : s.vnodeFreeHint ≤ maxVnodes) :
    Wp (createFile c parent name mode) s (fun id t => Made s t id) (fun _ t => t = s ∨ ∃ id, Made s t id) := by
  iterate 5 refine .look (.inl rfl) fun _ _ => ?_
  refine .bind ?_
  cases h : s.freeVnode with
  | none => exact .of_error (e := .noSpace) (t := s) (by simp [allocVnode,h]) (.inl rfl)
  | some id =>
    refine .of_ok (a := id) (t := { s with vnodeFreeHint := id + 1 }) (by simp [allocVnode,h])
      (.bind (.modify (.bind ?_)))
    have hm := initNode_made (n := { VNode.init parent name .regular (s.nodes parent).fsType
      (applyUmask mode c.umask) c.cred with symlinkTarget := [], size := byteLen [] }) hb h ⟨rfl,rfl,rfl⟩
    exact (insertEntry_made hm).imp (fun _ _ h => h) fun _ _ h => .inr ⟨id,h⟩

variable {b : ByteFile}

theorem isFile_of_world (h : s.world.file id = some b) : s.isFile id = true := by
  by_contra hf
  have hn : s.world.file id = none := if_neg hf
  rw [hn] at h
  cases h

theorem fileOf_of_world (h : s.world.file id = some b) : s.fileOf id = b := by
  have hw : s.world.file id = some (s.fileOf id) := if_pos (isFile_of_world h)
  exact some.inj (hw.symm.trans h)

theorem file_of_same (hc : t.pageCache = s.pageCache) (h : SameFile (s.nodes j) (t.nodes j)) :
    t.world.file j = s.world.file j ∧ t.world.appendOnly j = s.world.appendOnly j := by
  obtain ⟨ch,r,hn⟩ := h
  have hfile : t.isFile j = s.isFile j := by
    simp only [isFile,validVnode,hn]
    rfl
  have hsame : t.fileOf j = s.fileOf j :=
    fileOf_congr (by rw [hn]) (by rw [hn]) (by simp [MikuVfs.raw,hc,hn])
  exact ⟨by simp [MikuVfs.world,hfile,hsame],by simp [MikuVfs.world,hn]⟩

theorem file_of_blank (h : (t.nodes j).active = true → Blank (t.nodes j)) :
    t.world.file j = none ∨ t.world.file j = some .empty := by
  by_cases hf : t.isFile j = true
  · refine .inr ?_
    have hs := (h (active_of_isFile hf)).size
    simp only [MikuVfs.world,hf,↓reduceIte]
    refine congrArg some (ByteFile.ext_data hs fun i hi => ?_)
    have hi' : i < (t.nodes j).size := hi
    omega
  · exact .inl (if_neg hf)

theorem Filed.of_nodes (h : Filed s) (hc : t.pageCache = s.pageCache)
    (hfds : ∀ pid fd f, t.fdTables pid fd = some f → f.offset < 18446744073709551616)
    (hh : t.vnodeFreeHint ≤ maxVnodes)
    (hn : ∀ j, SameFile (s.nodes j) (t.nodes j) ∨ ((t.nodes j).active = true → Blank (t.nodes j))) :
    Filed t := by
  have hraw : ∀ j, SameFile (s.nodes j) (t.nodes j) → t.raw j = s.raw j := by
    rintro j ⟨ch,r,hs⟩
    simp [MikuVfs.raw,hc,hs]
  have hnew : ∀ k, AddressSpace.new.getPage k = none := by
    intro k
    unfold getPage AddressSpace.new
    simp
  refine ⟨h.owned.fewer hc fun j k p hj hp => ?_,fun j hj i hi => ?_,fun j sd hj hsd => ?_,fun j hj => ?_,
    hfds,hh⟩
  · rcases hn j with ⟨ch,r,hs⟩ | hb
    · rw [hs] at hj hp
      exact ⟨hj,hp⟩
    · rw [(hb hj).pages,hnew] at hp
      cases hp
  · rcases hn j with hs | hb
    · rw [hraw j hs]
      obtain ⟨ch,r,hs⟩ := hs
      rw [hs] at hj hi
      exact h.clean j hj i hi
    · simp [MikuVfs.raw,rawByte,(hb hj).pages,hnew]
  · rcases hn j with ⟨ch,r,hs⟩ | hb
    · rw [hs] at hj hsd ⊢
      exact h.static j sd hj hsd
    · rw [(hb hj).static] at hsd
      cases hsd
  · rcases hn j with ⟨ch,r,hs⟩ | hb
    · rw [hs] at hj ⊢
      exact h.small j hj
    · rw [(hb hj).size]
      decide

theorem Made.old (hm : Made s t id) (hb : s.world.file j = some b) : j ≠ id := by
  rintro rfl
  have ha := active_of_isFile (isFile_of_world hb)
  rw [hm.idle] at ha
  cases ha

theorem Filed.made (h : Filed s) (hm : Made s t id) : Filed t ∧ s.world.Grows t.world := by
  have hn : ∀ j, SameFile (s.nodes j) (t.nodes j) ∨ ((t.nodes j).active = true → Blank (t.nodes j)) := by
    intro j
    by_cases hj : j = id
    · subst hj
      exact .inr hm.blank
    · exact .inl (hm.others j hj)
  refine ⟨h.of_nodes hm.cache (by rw [hm.fds]; exact h.offsets) hm.hint hn,?_,?_,?_,hm.fds⟩
  · intro j b hb
    rw [(file_of_same hm.cache (hm.others j (hm.old hb))).1,hb]
  · intro j hb
    rcases hn j with hs | hbl
    · rw [(file_of_same hm.cache hs).1,hb]
      exact .inl rfl
    · exact file_of_blank hbl
  · intro j b hb
    exact (file_of_same hm.cache (hm.others j (hm.old hb))).2

/-- Opening empties the file. -/
def MikuVfs.cuts (s : MikuVfs) (flags : OpenFlags) (id : Nat) : Bool :=
  flags.has OpenFlags.truncate && flags.writable && (s.nodes id).isRegular

/-- What a call needs to do all that it is asked for or nothing: pages for the data, a
descriptor for a file emptied, a file made of pages, an offset that does not wrap. -/
def Roomy (s : MikuVfs) : Call → Prop
  | .open c cwd path flags _ => ∀ id, openLookup s cwd path flags = .ok id → s.cuts flags id = true →
      s.validVnode id = true ∧ (s.nodes id).staticData = none ∧ (s.freeFd c.pid).isSome = true
  | .write c fd data => ∀ f, s.getFd c.pid fd = .ok f →
      missingPages (s.nodes f.vnodeId).addrSpace (writeOffset (s.nodes f.vnodeId) f)
        (writtenLength (writeOffset (s.nodes f.vnodeId) f) data) ≤ s.pageCache.slab.free.length
  | .writeAt id off data => missingPages (s.nodes id).addrSpace off.toNat
      (writtenLength off.toNat data) ≤ s.pageCache.slab.free.length
  | .seek c fd whence => ∀ f, s.getFd c.pid fd = .ok f → s.isFile f.vnodeId = true →
      seekGoal (s.nodes f.vnodeId).size f.offset whence < 18446744073709551616
  | .truncateTo id _ => s.validVnode id = true ∧ (s.nodes id).staticData = none
  | .truncate c fd _ => ∀ f, s.getFd c.pid fd = .ok f → s.validVnode f.vnodeId = true →
      (s.nodes f.vnodeId).staticData = none
  | _ => True

instance instDecidableRoomy : (o : Call) → Decidable (Roomy s o)
  | .open .. => inferInstanceAs (Decidable (∀ _, _ = Except.ok _ → _ = true → _))
  | .write .. => inferInstanceAs (Decidable (∀ _, _ = Except.ok _ → _ ≤ _))
  | .writeAt .. => inferInstanceAs (Decidable (_ ≤ _))
  | .seek .. => inferInstanceAs (Decidable (∀ _, _ = Except.ok _ → _ = true → _ < _))
  | .truncateTo .. => inferInstanceAs (Decidable (_ = true ∧ _ = none))
  | .truncate .. => inferInstanceAs (Decidable (∀ _, _ = Except.ok _ → _ = true → _ = none))
  | .create .. | .mkdir .. | .symlink .. | .link .. | .unlink .. | .rmdir .. | .rename .. | .close .. | .dup ..
  | .dup2 .. | .fork .. | .exit .. | .read .. | .readAt .. => .isTrue trivial

/-- The three ways to get a file to open. -/
inductive Opened (s : MikuVfs) (flags : OpenFlags) (id : Nat) : MikuVfs → Prop
  | kept (h : s.cuts flags id = false) : Opened s flags id s
  | cut {t : MikuVfs} (hc : s.cuts flags id = true) (h : Changed s t id fun _ => .empty) :
      Opened s flags id t
  | made {t : MikuVfs} (h : Made s t id) : Opened s flags id t

/-- As it was, or with an empty file more. -/
def Idle (s t : MikuVfs) : Prop := Filed t ∧ s.world.Grows t.world

theorem World.Grows.refl {w : World} : w.Grows w :=
  ⟨fun _ _ h => h,fun _ h => .inl h,fun _ _ _ => rfl,rfl⟩

theorem Idle.refl (h : Filed s) : Idle s s := ⟨h,.refl⟩

theorem openExisting_spec (h : Filed s) (hr : s.cuts flags id = true →
      s.validVnode id = true ∧ (s.nodes id).staticData = none) :
    Wp (openExisting c flags id) s (fun j t => j = id ∧ Opened s flags id t) (fun _ t => Idle s t) := by
  unfold openExisting
  refine .look (.refl h) fun _ _ => ?_
  refine .look (.refl h) fun _ _ => ?_
  refine .bind (.check (fun _ => ?_) fun _ => .refl h)
  refine .look (.refl h) fun _ _ => ?_
  refine .bind (.modify (.pure ⟨rfl,?_⟩))
  split
  · rename_i hc
    obtain ⟨hv,hst⟩ := hr hc
    simp only [validVnode,Bool.and_eq_true] at hv
    exact .cut hc (truncateFile_changed h hv.2 hst)
  · rename_i hc
    exact .kept (Bool.eq_false_iff.mpr hc)

theorem resolveOrCreate_spec (h : Filed s) (hr : Roomy s (.open c cwd path flags mode)) :
    Wp (resolveOrCreate c cwd path flags mode) s
      (fun id t => Opened s flags id t ∧ (s.cuts flags id = true → (s.nodes id).active = true →
        (s.freeFd c.pid).isSome = true)) (fun _ t => Idle s t) := by
  refine resolveOrCreate_of (fun _ => .refl h) (fun id hl => ?_) fun _ parent name => ?_
  · refine (openExisting_spec h fun hc => ⟨(hr id hl hc).1,(hr id hl hc).2.1⟩).mono ?_
    rintro j t ⟨rfl,ho⟩
    exact ⟨ho,fun hc _ => (hr j hl hc).2.2⟩
  · refine (createFile_made h.hint).imp (fun id t hm => ⟨.made hm,fun _ ha => ?_⟩) ?_
    · rw [hm.idle] at ha
      cases ha
    · rintro _ t (rfl | ⟨id,hm⟩)
      · exact .refl h
      · exact h.made hm

theorem Opened.filed (h : Filed s) (ho : Opened s flags id t) : Filed t := by
  cases ho with
  | kept hc => exact h
  | cut hc hch => exact hch.filed
  | made hm => exact (h.made hm).1

theorem Opened.fds (ho : Opened s flags id t) : t.fdTables = s.fdTables := by
  cases ho with
  | kept hc => rfl
  | cut hc hch => exact hch.fds
  | made hm => exact hm.fds

theorem Opened.readonly (ho : Opened s flags id t) (ha : (s.nodes id).active = true) :
    (t.nodes id).isReadonlyFs = (s.nodes id).isReadonlyFs := by
  cases ho with
  | kept hc => rfl
  | cut hc hch =>
    obtain ⟨_,_,hn⟩ := hch.node
    rw [hn]
    rfl
  | made hm =>
    rw [hm.idle] at ha
    cases ha

theorem Opened.files (h : Filed s) (ho : Opened s flags id t) :
    (∀ j b, s.world.file j = some b → t.world.file j = some
      (if j = id ∧ flags.has OpenFlags.truncate ∧ flags.writable then .empty else b)) ∧
    (∀ j, s.world.file j = none → t.world.file j = none ∨ j = id ∧ t.world.file j = some .empty) ∧
    ∀ j b, s.world.file j = some b → t.world.appendOnly j = s.world.appendOnly j := by
  cases ho with
  | kept hc =>
    refine ⟨fun j b hb => ?_,fun j hj => .inl hj,fun _ _ _ => rfl⟩
    rw [if_neg]
    · exact hb
    · rintro ⟨rfl,ht,hw⟩
      have hreg := isFile_of_world hb
      simp only [isFile,Bool.and_eq_true] at hreg
      simp [cuts,ht,hw,hreg.1.2] at hc
  | cut hc hch =>
    simp only [cuts,Bool.and_eq_true] at hc
    rw [hch.world]
    refine ⟨fun j b hb => ?_,fun j hj => .inl ?_,fun _ _ _ => rfl⟩
    · by_cases hj : j = id
      · subst hj
        rw [if_pos ⟨rfl,hc.1⟩]
        simp [World.update,hb]
      · rw [if_neg fun hx => hj hx.1]
        simpa [World.update,hj] using hb
    · by_cases hi : j = id
      · subst hi
        simp [World.update,hj]
      · simpa [World.update,hi] using hj
  | made hm =>
    obtain ⟨-,hg⟩ := h.made hm
    refine ⟨fun j b hb => ?_,fun j hj => ?_,hg.appendOnly⟩
    · rw [if_neg fun hx => hm.old hb hx.1]
      exact hg.old j b hb
    · by_cases hi : j = id
      · exact (hg.new j hj).imp_right fun he => ⟨hi,he⟩
      · exact .inl ((file_of_same hm.cache (hm.others j hi)).1.trans hj)

/-- A failure after that leaves no trace in the old files. -/
theorem Opened.idle (h : Filed s) (ho : Opened s flags id t)
    (hf : s.cuts flags id = true → (s.nodes id).active = true → s.isFile id = false) : Idle s t := by
  refine ⟨ho.filed h,?_,fun j hj => ?_,(ho.files h).2.2,ho.fds⟩
  · intro j b hb
    rw [(ho.files h).1 j b hb,if_neg]
    rintro ⟨rfl,ht,hw⟩
    have hfile := isFile_of_world hb
    rw [hf ?_ (active_of_isFile hfile)] at hfile
    · cases hfile
    · simp only [isFile,Bool.and_eq_true] at hfile
      simp [cuts,ht,hw,hfile.1.2]
  · exact ((ho.files h).2.1 j hj).imp_right And.right

theorem open_spec (h : Filed s) (hr : Roomy s (.open c cwd path flags mode)) :
    Wp (Vfs.open c cwd path flags mode) s
      (fun n t => Filed t ∧ Spec s.world (.open c cwd path flags mode) (.num n) t.world)
      (fun _ t => Idle s t) := by
  refine .bind ((resolveOrCreate_spec h hr).imp ?_ fun _ _ hi => hi)
  rintro id t ⟨ho,hfree⟩
  refine .bind (.reads (fun _ _ => ?_) fun e he => ho.idle h fun hc ha => ?_)
  · refine .bind (wp_fdAlloc (fun hf => ho.idle h fun hc ha => ?_) fun fd hf => ?_)
    · have hs : s.freeFd c.pid = none := by
        rw [← hf,freeFd,freeFd,ho.fds]
      rw [hs] at hfree
      cases hfree hc ha
    · refine .bind (.modify (.pure ?_))
      have hnone := (freeFd_spec hf).1
      have hn : ∀ j, SameFile (t.nodes j) (((t.setFd c.pid fd (some ⟨id,flags,0⟩)).mapNode id
          VNode.incRef).nodes j) := by
        intro j
        by_cases hj : j = id
        · subst hj
          simp only [mapNode,setNode,setFd,update_self]
          exact ⟨_,_,rfl⟩
        · simpa [mapNode,setNode,setFd,hj] using SameFile.refl
      have hw := fun j => file_of_same (s := t) (t := (t.setFd c.pid fd (some ⟨id,flags,0⟩)).mapNode id
        VNode.incRef) (j := j) rfl (hn j)
      refine ⟨?_,id,(congrFun (congrFun ho.fds.symm _) _).trans hnone,?_,?_,?_,?_⟩
      · refine (ho.filed h).of_nodes rfl ?_ (ho.filed h).hint fun j => .inl (hn j)
        intro q e f hf
        rcases setFd_cases hf with hx | hf
        · cases hx
          exact Nat.zero_lt_succ _
        · exact (ho.filed h).offsets q e f hf
      · simp only [setFd,ho.fds]
        rfl
      · intro j b hb
        rw [(hw j).1]
        exact (ho.files h).1 j b hb
      · intro j hj
        rw [(hw j).1]
        exact (ho.files h).2.1 j hj
      · intro j b hb
        rw [(hw j).2]
        exact (ho.files h).2.2 j b hb
  · rw [ho.readonly ha] at he
    split at he
    · rename_i hx
      simp only [Bool.and_eq_true] at hx
      simp [isFile,hx.1.2]
    · cases he

variable {w : World} {f : OpenFile}

theorem World.moveTo_self (h : w.fds pid fd = some f) : w.moveTo pid fd f.offset = w := by
  refine ext' rfl rfl ?_
  unfold moveTo
  rw [h]
  simp only [map_some]
  rw [← h,update_eq_self,update_eq_self]

theorem active_of_valid (h : s.validVnode id = true) : (s.nodes id).active = true := by
  simp only [validVnode,Bool.and_eq_true] at h
  exact h.2

theorem answer_of_isFile (h : s.isFile id = true) : (s.nodes id).answer c = none := by
  simp only [isFile,VNode.isRegular,VNode.isReadonlyFs,Bool.and_eq_true,Bool.not_eq_true',
    Bool.or_eq_false_iff,beq_eq_false_iff_ne,beq_iff_eq] at h
  simp [VNode.answer,VNode.isDevice,h.1.2,h.2.2]

theorem readAny_spec (h : Filed s) (ha : (s.nodes id).active = true) : Wp (readAny c id off n) s
      (fun bs t => Filed t ∧ t.world = s.world ∧ (s.isFile id = true → bs = (s.fileOf id).read off n))
      (fun _ t => t = s) := by
  unfold Wp readAny
  cases hx : (s.nodes id).answer c with
  | some r =>
    have hno : s.isFile id ≠ true := by
      intro hf
      rw [answer_of_isFile hf] at hx
      cases hx
    cases r with
    | ok bytes => exact ⟨h,rfl,fun hf => absurd hf hno⟩
    | error e => rfl
  | none =>
    by_cases hd : (s.nodes id).isDir = true
    · rw [if_pos hd]
    · rw [if_neg hd]
      obtain ⟨t,ht,hf,hw,-⟩ := readNode_spec h ha
      rw [ht]
      exact ⟨hf,hw,fun _ => rfl⟩

theorem length_read_add (hs : b.size < 18446744073709551616) (ho : off < 18446744073709551616) :
    (off + (b.read off n).length) % 18446744073709551616 = off + (b.read off n).length := by
  refine Nat.mod_eq_of_lt ?_
  simp only [ByteFile.read,length_map,length_range]
  omega

theorem read_spec (h : Filed s) :
    Wp (Vfs.read c fd n) s (fun bs t => Filed t ∧ Spec s.world (.read c fd n) (.bytes bs) t.world)
      (fun _ t => Idle s t) := by
  refine .look (.refl h) fun f hf => ?_
  refine .bind (.check (fun hread => ?_) fun _ => .refl h)
  refine .look (.refl h) fun _ hv => ?_
  have ha := active_of_valid (of_if_ok hv)
  have hfd : s.world.fds c.pid fd = some f := (getFd_ok hf).1
  split
  · rename_i hz
    refine .pure ⟨h,f,hfd,hread,fun b _ => ⟨?_,?_⟩,fun _ => ⟨f.offset,?_⟩⟩
    · simp [ByteFile.read,hz]
    · exact (moveTo_self hfd).symm
    · exact (moveTo_self hfd).symm
  · refine .bind ((readAny_spec h ha).imp ?_ (by rintro _ _ rfl; exact .refl h))
    rintro bs t ⟨ht,hw,hbs⟩
    refine .bind (.modify (.pure ?_))
    obtain ⟨ht',hw'⟩ := @Filed.setOffset _ c.pid fd (f.offset + bs.length) ht
    refine ⟨ht',f,hfd,hread,fun b hb => ?_,fun _ => ⟨_,by rw [hw',hw]⟩⟩
    obtain rfl := fileOf_of_world hb
    obtain rfl := hbs (isFile_of_world hb)
    exact ⟨rfl,by rw [hw',hw,length_read_add (h.small _ ha) (h.offsets _ _ _ hfd)]⟩

theorem World.update_congr {f : ByteFile → ByteFile}
    (h : ∀ b, w.file id = some b → f b = g b) : w.update id f = w.update id g := by
  unfold World.update
  rw [Option.map_congr h]

theorem World.update_of_none {f : ByteFile → ByteFile} (h : w.file id = none) :
    w.update id f = w := by
  refine ext' ?_ rfl rfl
  show Function.update w.file id ((w.file id).map f) = w.file
  rw [h,map_none,← h,update_eq_self]

theorem writeFile_spec (h : Filed s) (ha : (s.nodes id).active = true) (hne : data ≠ [])
    (hroom : missingPages (s.nodes id).addrSpace off (writtenLength off data) ≤
      s.pageCache.slab.free.length) : Wp (writeFile id off data) s
      (fun n t => n = writtenLength off data ∧ off < maxSize ∧
        Changed s t id fun b => written b off data) (fun _ t => t = s) := by
  refine .look rfl fun _ _ => ?_
  refine .look rfl fun _ him => ?_
  refine writeNode_spec h ha ?_ hne fun _ => hroom
  -- what is part of the kernel image cannot be written
  cases hst : (s.nodes id).staticData with
  | none => rfl
  | some sd =>
    have := (h.static id sd ha hst).2
    rw [of_if_error him] at this
    cases this

theorem writeAny_spec (h : Filed s) (ha : (s.nodes f.vnodeId).active = true) (hne : data ≠ [])
    (hroom : missingPages (s.nodes f.vnodeId).addrSpace (writeOffset (s.nodes f.vnodeId) f)
      (writtenLength (writeOffset (s.nodes f.vnodeId) f) data) ≤ s.pageCache.slab.free.length) :
    Wp (writeAny c f data) s (fun r t => Filed t ∧
        (s.isFile f.vnodeId = true → r.2 = writtenLength (writeOffset (s.nodes f.vnodeId) f) data ∧
          r.1 = writeOffset (s.nodes f.vnodeId) f + r.2 ∧
          writeOffset (s.nodes f.vnodeId) f < maxSize ∧
          t.world = s.world.update f.vnodeId fun b =>
            written b (writeOffset (s.nodes f.vnodeId) f) data) ∧
        (s.isFile f.vnodeId ≠ true → t.world = s.world)) (fun _ t => t = s) := by
  have hdev : s.isFile f.vnodeId = true → (s.nodes f.vnodeId).fsType ≠ .procFS ∧
      (s.nodes f.vnodeId).isDevice = false := by
    intro hf
    have := answer_of_isFile (c := c) hf
    simpa [VNode.answer] using this
  unfold Wp writeAny
  dsimp only
  by_cases hp : (s.nodes f.vnodeId).fsType = .procFS
  · rw [if_pos hp]
  rw [if_neg hp]
  by_cases hd : (s.nodes f.vnodeId).isDevice = true
  · rw [if_pos hd]
    cases c.device with
    | ok bytes =>
      refine ⟨h,fun hf => ?_,fun _ => rfl⟩
      rw [(hdev hf).2] at hd
      cases hd
    | error e => rfl
  rw [if_neg hd]
  have hw := writeFile_spec h ha hne hroom
  unfold Wp at hw
  cases hx : writeFile f.vnodeId (writeOffset (s.nodes f.vnodeId) f) data s with
  | error e t =>
    rw [hx] at hw
    exact hw
  | ok n t =>
    rw [hx] at hw
    obtain ⟨rfl,hlt,hch⟩ := hw
    refine ⟨hch.filed,fun _ => ⟨rfl,rfl,hlt,hch.world⟩,fun hf => ?_⟩
    rw [hch.world,update_of_none (if_neg hf)]

theorem write_spec (h : Filed s) (hr : Roomy s (.write c fd data)) :
    Wp (Vfs.write c fd data) s (fun n t => Filed t ∧ Spec s.world (.write c fd data) (.num n) t.world)
      (fun _ t => Idle s t) := by
  unfold Vfs.write
  refine .look (.refl h) fun f hf => ?_
  refine .bind (.check (fun hwrite => ?_) fun _ => .refl h)
  refine .look (.refl h) fun _ hv => ?_
  have ha := active_of_valid (of_if_ok hv)
  have hfd : s.world.fds c.pid fd = some f := (getFd_ok hf).1
  split
  · rename_i hz
    refine .pure ⟨h,f,hfd,hwrite,fun b _ => ?_,fun _ => ⟨f.offset,(moveTo_self hfd).symm⟩⟩
    rw [if_pos hz]
    exact ⟨rfl,rfl⟩
  · rename_i hz
    have hne : data ≠ [] := by simpa using hz
    refine .bind ((writeAny_spec h ha hne (hr f hf)).imp ?_ (by rintro _ _ rfl; exact .refl h))
    rintro r t ⟨ht,hfile,hno⟩
    refine .bind (.modify (.pure ?_))
    obtain ⟨ht',hw'⟩ := @Filed.setOffset _ c.pid fd r.1 ht
    refine ⟨ht',f,hfd,hwrite,fun b hb => ?_,fun hn => ⟨r.1 % 18446744073709551616,?_⟩⟩
    · obtain rfl := fileOf_of_world hb
      obtain ⟨hlen,hoff,hlt,hw⟩ := hfile (isFile_of_world hb)
      have hle : r.2 ≤ maxSize - writeOffset (s.nodes f.vnodeId) f := hlen ▸ Nat.min_le_right _ _
      have hmax : maxSize = 65536 := rfl
      rw [if_neg hz,hw',hw,Nat.mod_eq_of_lt (by omega),hoff]
      refine ⟨hlen,hlt,congrArg (moveTo · c.pid fd _) (update_congr fun b hb' => ?_)⟩
      obtain rfl := fileOf_of_world hb'
      rfl
    · rw [hw',hno]
      intro hf
      have hs : s.world.file f.vnodeId = some _ := if_pos hf
      rw [hn] at hs
      cases hs

/-- A number that is kept as `i64` and is not negative there is itself, unless it was too
large for `u64`. -/
theorem wrap64_eq {n : Int} (hn : 0 ≤ wrap64 n) (hlo : -9223372036854775808 ≤ n)
    (hhi : n < 18446744073709551616) : wrap64 n = n := by
  unfold wrap64 at *
  rw [Int.bmod_def] at *
  split at hn
  · rw [if_pos (by assumption)]
    omega
  · omega

theorem wrap64_lt {n : Int} : wrap64 n < 9223372036854775808 := by
  unfold wrap64
  rw [Int.bmod_def]
  split <;> omega

theorem seekTarget_eq (hn : 0 ≤ seekTarget size off whence)
    (hlt : seekGoal size off whence < 18446744073709551616) :
    seekTarget size off whence = seekGoal size off whence := by
  cases whence with
  | start pos => exact wrap64_eq hn (by omega) hlt
  | current delta | end_ delta =>
    have := delta.le_toInt
    exact wrap64_eq hn (by omega) hlt

theorem seekTarget_lt : (seekTarget size off whence).toNat < 18446744073709551616 := by
  have h : seekTarget size off whence < 9223372036854775808 := by
    cases whence with
    | start pos => exact wrap64_lt
    | current delta => exact wrap64_lt
    | end_ delta => exact wrap64_lt
  omega

theorem seek_spec (h : Filed s) (hr : Roomy s (.seek c fd whence)) :
    Wp (Vfs.seek c fd whence) s (fun n t => Filed t ∧ Spec s.world (.seek c fd whence) (.num n) t.world)
      (fun _ t => Idle s t) := by
  refine .look (.refl h) fun f hf => ?_
  refine .look (.refl h) fun _ hv => ?_
  refine .look (.refl h) fun target ht => ?_
  refine .bind (.check (fun hpos => ?_) fun _ => .refl h)
  refine .bind (.modify (.pure ?_))
  have hpos : 0 ≤ target := of_decide_eq_true hpos
  obtain rfl := Except.ok.inj ht
  obtain ⟨ht,hw⟩ := @Filed.setOffset _ c.pid fd
    (seekTarget (s.nodes f.vnodeId).size f.offset whence).toNat h
  refine ⟨ht,f,(getFd_ok hf).1,fun b hb => ?_,?_⟩
  · obtain rfl := fileOf_of_world hb
    rw [Int.toNat_of_nonneg hpos]
    exact seekTarget_eq hpos (hr f hf (isFile_of_world hb))
  · rw [hw,Nat.mod_eq_of_lt seekTarget_lt]

theorem readAt_spec {off : UInt64} (h : Filed s) : Wp (readAtVnode id off.toNat n) s
      (fun bs t => Filed t ∧ Spec s.world (.readAt id off n) (.bytes bs) t.world)
    (fun _ t => Idle s t) := by
  unfold Wp readAtVnode
  by_cases hz : (!s.validVnode id || decide (n = 0)) = true
  · rw [if_pos hz]
    refine ⟨h,rfl,fun b hb => ?_⟩
    have hv := isFile_of_world hb
    simp only [isFile,Bool.and_eq_true] at hv
    simp only [hv.1.1,Bool.not_true,Bool.false_or,decide_eq_true_eq] at hz
    simp [ByteFile.read,hz]
  rw [if_neg hz]
  simp only [Bool.or_eq_true,Bool.not_eq_true',decide_eq_true_eq,not_or,Bool.not_eq_false] at hz
  by_cases hd : (s.nodes id).isDir = true
  · rw [if_pos hd]
    exact .refl h
  · rw [if_neg hd]
    obtain ⟨t,ht,hf,hw,-⟩ := @readNode_spec _ _ h (active_of_valid hz.1) off.toNat n
    rw [ht]
    exact ⟨hf,hw,fun b hb => by rw [fileOf_of_world hb]⟩

theorem writeAt_spec {off : UInt64} (h : Filed s) (hr : Roomy s (.writeAt id off data)) :
    Wp (writeAtVnode id off.toNat data) s
      (fun n t => Filed t ∧ Spec s.world (.writeAt id off data) (.num n) t.world)
      (fun _ t => Idle s t) := by
  unfold writeAtVnode
  refine .bind (.reads (fun b hb => ?_) fun _ he => nomatch he)
  obtain rfl := Except.ok.inj hb
  by_cases hz : (!s.validVnode id || data.isEmpty) = true
  · rw [if_pos hz]
    have hemp : ∀ b, s.world.file id = some b → data.isEmpty = true := by
      intro b hb
      have hv := isFile_of_world hb
      simp only [isFile,Bool.and_eq_true] at hv
      simpa [hv.1.1] using hz
    refine .pure ⟨h,fun b hb => (if_pos (hemp b hb)).symm,?_⟩
    cases hb : s.world.file id with
    | none => exact (update_of_none hb).symm
    | some b =>
      refine ext' ?_ rfl rfl
      show s.world.file = update s.world.file id ((s.world.file id).map _)
      rw [hb,map_some,written,if_pos (hemp b hb),← hb,update_eq_self]
  rw [if_neg hz]
  simp only [Bool.or_eq_true,Bool.not_eq_true',not_or,Bool.not_eq_false,List.isEmpty_iff] at hz
  refine .look (.refl h) fun _ _ => ?_
  refine .look (.refl h) fun _ _ => ?_
  refine .look (.refl h) fun _ hst => ?_
  have hst : (s.nodes id).staticData = none := by
    have := of_if_error hst
    simp only [Bool.or_eq_false_iff,isSome_eq_false_iff,isNone_iff_eq_none] at this
    exact this.1
  refine (writeNode_spec h (active_of_valid hz.1) hst hz.2 fun _ => hr).imp ?_
    (by rintro _ _ rfl; exact .refl h)
  rintro n t ⟨rfl,hlt,hch⟩
  refine ⟨hch.filed,fun b _ => ?_,hch.world⟩
  have hemp : data.isEmpty = false := by simpa using hz.2
  simp [hemp]

theorem truncate_spec {size : UInt64} (h : Filed s) (hr : Roomy s (.truncate c fd size)) :
    Wp (sysTruncate c fd size.toNat) s
      (fun _ t => Filed t ∧ Spec s.world (.truncate c fd size) .done t.world) (fun _ t => Idle s t) := by
  refine .look (.refl h) fun f hf => ?_
  refine .look (.refl h) fun _ hv => ?_
  have hv := of_if_ok hv
  have hch := truncateTo_changed h (active_of_valid hv) (hr f hf hv) size.toNat_lt
  exact .modify ⟨hch.filed,f,(getFd_ok hf).1,hch.world⟩

/-- The calls on a file, whether by descriptor or by node. -/
def Call.onFile : Call → Bool
  | .open .. | .read .. | .write .. | .seek .. | .readAt .. | .writeAt .. | .truncateTo .. | .truncate .. =>
    true
  | _ => false

/-- A call that succeeds does what it does to arrays of bytes; one that fails does nothing
to them. -/
def Refines (s : MikuVfs) (o : Call) : Prop :=
  Wp o.run s (fun a t => Spec s.world o a t.world) (fun _ t => s.world.Grows t.world)

theorem step_refines {o : Call} (h : Filed s) (ho : o.onFile = true) (hr : Roomy s o) :
    Filed (step s o) ∧ Refines s o := by
  suffices hw : Wp o.run s (fun a t => Filed t ∧ Spec s.world o a t.world) (fun _ t => Idle s t) by
    refine ⟨?_,hw.imp (fun _ _ hx => hx.2) fun _ _ hx => hx.2⟩
    unfold step final
    unfold Wp at hw
    split at hw <;> exact hw.1
  cases o with
  | «open» c cwd path flags mode => exact .bind (open_spec h hr)
  | read c fd n => exact .bind (read_spec h)
  | write c fd data => exact .bind (write_spec h hr)
  | seek c fd whence => exact .bind (seek_spec h hr)
  | readAt id offset n => exact .bind (readAt_spec h)
  | writeAt id offset data => exact .bind (writeAt_spec h hr)
  | truncateTo id newSize =>
    have hch := truncateTo_changed h (active_of_valid hr.1) hr.2 newSize.toNat_lt
    exact ⟨hch.filed,hch.world⟩
  | truncate c fd length => exact .bind (truncate_spec h hr)
  | _ => cases ho

/-- Along every run of calls on files that have the room they need, each call that succeeds
behaves as on arrays of bytes that are zero wherever they grow. -/
theorem files_refine (s : MikuVfs) (hs : Filed s) (os : List Call) (ho : ∀ o ∈ os, o.onFile = true)
    (h : Along step Roomy s os) : Along step Refines s os := by
  induction os generalizing s with
  | nil => trivial
  | cons o os ih =>
    obtain ⟨hf,hr⟩ := step_refines hs (ho o mem_cons_self) h.1
    exact ⟨hr,ih _ hf (fun o' ho' => ho o' (mem_cons_of_mem _ ho')) h.2⟩

theorem cacheOk_slab : CacheOk ⟨fun _ => .cleared,Slab.new n,[]⟩ := by
  refine ⟨nodup_reverse.mpr nodup_range,fun _ _ => rfl,?_,?_,nodup_nil⟩
  · exact fun _ h => nomatch h
  · exact fun _ h => nomatch h

theorem filed_bare : Filed bare := by
  have hblank : ∀ id, Blank (bare.nodes id) := by
    intro id
    unfold bare
    dsimp only
    split <;> exact ⟨rfl,rfl,rfl⟩
  have hpage : ∀ id k, (bare.nodes id).addrSpace.getPage k = none := by
    intro id k
    rw [(hblank id).pages]
    unfold getPage AddressSpace.new
    simp
  refine ⟨⟨cacheOk_slab,?_,?_⟩,?_,?_,?_,?_,by decide⟩
  · intro id k p _ hp
    rw [hpage] at hp
    cases hp
  · intro id id' k k' p _ _ hp
    rw [hpage] at hp
    cases hp
  · intro id _ i _
    simp [MikuVfs.raw,rawByte,hpage]
  · intro id sd _ hst
    rw [(hblank id).static] at hst
    cases hst
  · intro id _
    rw [(hblank id).size]
    decide
  · intro _ _ _ h
    cases h

def useFile : List Call :=
  [.open kernel 0 ['/','f'] ⟨OpenFlags.create ||| OpenFlags.read ||| OpenFlags.write⟩ 0o644,
    .write kernel 3 [1,2,3],.truncate kernel 3 1,.truncate kernel 3 600,.seek kernel 3 (.start 0),
    .read kernel 3 3]

/-- A file is cut and extended again; what was cut off is read as zeroes. -/
theorem files_refine_use : Along step Refines bare useFile :=
  files_refine bare filed_bare useFile (by decide) (by decide +kernel)

/-- One file is empty, the next eight have all the pages but one. -/
def crowded : MikuVfs where
  nodes := fun id =>
    if id = 0 then { bare.nodes 0 with
      children := (List.range' 1 9).foldl (fun ch k => (ch.insert (fileName k) k).2) Children.new }
    else if id = 1 then file id
    else if id < 10 then { file id with
      size := AddressSpace.maxSize
      addrSpace := fun k => if 128 * (id - 2) + k < 1023 then some (128 * (id - 2) + k) else none }
    else VNode.empty
  pageCache := pages 1023
  fdTables := fun _ _ => none
  vnodeFreeHint := 10
  generation := fun id => if 0 < id ∧ id < 10 then 1 else 0
where
  fileName (k : Nat) : Str := [Char.ofNat (97 + k)]
  file (k : Nat) : VNode := VNode.init 0 (fileName k) .regular .tmpFS 0o644 Credentials.root
  pages (n : Nat) : PageCache := ⟨fun p => ⟨zeroBytes,decide (p < n)⟩,⟨[n],fun p => decide (p < n)⟩,
    List.range n⟩

def growFile : List Call := [.writeAt 1 511 [7,8],.truncateTo 1 512,.readAt 1 511 1]

theorem getPage_crowded {k p : Nat} (h : (crowded.nodes id).addrSpace.getPage k = some p) :
    1 < id ∧ k < 128 ∧ p = 128 * (id - 2) + k ∧ p < 1023 := by
  have hd : directBlocks = 128 := rfl
  unfold getPage at h
  split at h
  · unfold crowded at h
    dsimp only at h
    split at h
    · cases h
    split at h
    · cases h
    split at h
    · dsimp only at h
      split at h
      · cases h
        omega
      · cases h
    · cases h
  · cases h

theorem cacheOk_pages : CacheOk (crowded.pages n) := by
  refine ⟨nodup_singleton n,fun p hp => ?_,fun _ hp => hp,fun p hp => ?_,nodup_range⟩
  · cases mem_singleton.mp hp
    exact decide_eq_false (Nat.lt_irrefl n)
  · exact decide_eq_true (mem_range.mp hp)

theorem filed_crowded : Filed crowded := by
  have hsmall : ∀ id, (crowded.nodes id).size ≤ maxSize ∧ (crowded.nodes id).staticData = none := by
    intro id
    unfold crowded
    dsimp only
    repeat' split
    all_goals exact ⟨by first | exact Nat.zero_le _ | exact .refl,rfl⟩
  refine ⟨⟨cacheOk_pages,?_,?_⟩,?_,?_,fun id _ => ?_,?_,by decide⟩
  · intro id k p _ hp
    exact decide_eq_true (getPage_crowded hp).2.2.2
  · intro id id' k k' p _ _ hp hp'
    have := getPage_crowded hp
    have := getPage_crowded hp'
    omega
  · intro id _ i _
    unfold MikuVfs.raw rawByte
    split <;> rfl
  · intro id sd _ hst
    rw [(hsmall id).2] at hst
    cases hst
  · exact Nat.lt_of_le_of_lt (hsmall id).1 (by decide)
  · exact fun _ _ _ h => nomatch h

/-- Of two bytes the second needs a missing page. The call fails, and the file stays empty;
but the first byte is in its page, and appears when the file is extended. -/
theorem lost_write_appears : Filed crowded ∧ (∀ o ∈ growFile, o.onFile = true) ∧
    ((Call.writeAt 1 511 [7,8]).run crowded matches .error .noSpace _) ∧
    ((Call.readAt 1 511 1).run (run crowded [.writeAt 1 511 [7,8],.truncateTo 1 512]) matches
      .ok (.bytes [7]) _) ∧
    ¬ Along step Refines crowded growFile := by
  refine ⟨filed_crowded,by decide,by decide +kernel,by decide +kernel,?_⟩
  rintro ⟨-,h,-⟩
  have hw : (truncateTo (step crowded (.writeAt 1 511 [7,8])) 1 512).world = (step crowded
      (.writeAt 1 511 [7,8])).world.update 1 fun b => b.resize 512 := h
  have hbyte := congrArg (fun w => (w.file 1).map fun b => b.data 511) hw
  exact absurd hbyte (by decide +kernel)

end Miku.Vfs
