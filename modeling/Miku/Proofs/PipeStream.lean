import Miku.Proofs.TmpfsRuns

namespace Miku.Vfs.Pipe
open Lib MikuVfs Function List

variable {s : Pipe} {c : Ctx} {n : Nat} {data : List UInt8}

/-- Whether a write is taken as a whole is decided by what is unread. -/
def Decides (accept : Nat → Nat → Bool) (s : Pipe) : PipeOp → Prop
  | .write c fd data => s.writes c fd →
      (s.accepted c fd data = some data.length ↔ accept (s.sent.length - s.got.length) data.length)
  | _ => True

/-- What was read is the beginning of what was written, and writes are taken by what is
unread. -/
def Streams (accept : Nat → Nat → Bool) (s : Pipe) (os : List PipeOp) : Prop :=
  (s.run os).got <+: (s.run os).sent ∧ Along step (Decides accept) s os

/-- A write through a descriptor that stands at the end of the pipe, ends within the greatest
size of a file and finds the pages it needs. -/
def AtEnd (s : Pipe) : PipeOp → Prop
  | .write c fd data => ∀ f, s.vfs.getFd c.pid fd = .ok f → f.vnodeId = s.id → f.flags.writable →
      writeOffset s.node f = s.node.size ∧ s.node.size + data.length ≤ AddressSpace.maxSize ∧
        missingPages s.node.addrSpace s.node.size data.length ≤ s.vfs.pageCache.slab.free.length
  | _ => True

instance instDecidableAtEnd : (o : PipeOp) → Decidable (s.AtEnd o)
  | .write .. => inferInstanceAs (Decidable (∀ _, _ = Except.ok _ → _ = _ → _ = true → _))
  | .read _ | .fork .. => .isTrue trivial

structure IsPipe (s : Pipe) : Prop where
  valid : s.vfs.validVnode s.id
  kind : s.node.kind = .pipe
  fsType : s.node.fsType ≠ .procFS
  mutable : s.node.immutable = false

/-- The file is what was written, and its readers are where they say. -/
structure Inv (s : Pipe) : Prop extends IsPipe s where
  filed : Filed s.vfs
  sent : s.sent = (s.vfs.fileOf s.id).contents
  got : s.got = s.sent.take s.readPos
  pos : s.readPos ≤ s.node.size

theorem Inv.active (h : Inv s) : (s.vfs.nodes s.id).active = true := active_of_valid h.valid

theorem Inv.static (h : Inv s) : (s.vfs.nodes s.id).staticData = none := by
  cases hst : (s.vfs.nodes s.id).staticData with
  | none => rfl
  | some sd =>
    have him := (h.filed.static s.id sd h.active hst).2
    have := h.mutable
    rw [node,him] at this
    cases this

theorem IsPipe.not_device (h : IsPipe s) : (s.vfs.nodes s.id).isDevice = false := by
  have hk : (s.vfs.nodes s.id).kind = .pipe := h.kind
  simp [VNode.isDevice,hk]

theorem IsPipe.not_dir (h : IsPipe s) : (s.vfs.nodes s.id).isDir = false := by
  have hk : (s.vfs.nodes s.id).kind = .pipe := h.kind
  simp [VNode.isDir,hk]

theorem tryRead_inv (h : Inv s) : Inv (s.tryRead n) := by
  rw [tryRead]
  split
  · exact h
  · next hc =>
    by_cases hn : n = 0
    · subst hn
      simpa [readAtVnode] using h
    · obtain ⟨p,hp,ht⟩ := @readNode_touched _ _ h.filed h.active s.readPos n
      have hread : readAtVnode s.id s.readPos n s.vfs =
          .ok ((s.vfs.fileOf s.id).read s.readPos n) { s.vfs with pageCache := p } := by
        rw [readAtVnode,if_neg (by simp [h.valid,hn]),if_neg (by simp [h.not_dir])]
        exact hp
      have hfile : MikuVfs.fileOf { s.vfs with pageCache := p } s.id = s.vfs.fileOf s.id :=
        fileOf_congr rfl rfl (raw_touched ht _)
      rw [hread]
      have hlen : ((s.vfs.fileOf s.id).read s.readPos n).length = min n (s.node.size - s.readPos) := by
        simp [ByteFile.read,fileOf,node]
      refine ⟨⟨h.valid,h.kind,h.fsType,h.mutable⟩,(h.filed.touched ht).1,?_,?_,?_⟩
      · rw [hfile]
        exact h.sent
      · have hsize : s.sent.length = s.node.size := by
          rw [h.sent,ByteFile.length_contents]
          rfl
        show s.got ++ _ = s.sent.take (s.readPos + _)
        rw [hlen,h.got,ByteFile.read_eq_contents,← h.sent,take_add]
        congr 1
        rw [take_eq_take_iff,length_drop,hsize]
        omega
      · show s.readPos + _ ≤ s.node.size
        have := h.pos
        rw [hlen]
        omega

theorem writeNode_at_end (h : Inv s) (hne : data ≠ [])
    (hmax : s.node.size + data.length ≤ AddressSpace.maxSize)
    (hroom : missingPages s.node.addrSpace s.node.size data.length ≤ s.vfs.pageCache.slab.free.length) :
    ∃ t, writeNode s.id s.node.size data s.vfs = .ok data.length t ∧
      Changed s.vfs t s.id fun b => b.write b.size data := by
  have hpos : 0 < data.length := length_pos_iff.mpr hne
  have hlen : writtenLength s.node.size data = data.length := by
    rw [writtenLength]
    omega
  obtain ⟨t,ht,hch⟩ := @writeNode_ok _ _ h.filed h.active h.static _ s.node.size hne (by omega)
    (by rw [hlen]; exact hroom)
  rw [hlen] at ht
  refine ⟨t,ht,hch.filed,fun ha => ?_,hch.node,hch.nodes,hch.raw,hch.fds⟩
  rw [hch.file ha]
  rw [written,if_neg (by simpa using hne),take_of_length_le (by omega)]
  rfl

variable {f : OpenFile}

section

variable (h : Inv s) (hf : s.vfs.getFd c.pid fd = .ok f) (hid : f.vnodeId = s.id)
    (hw : f.flags.writable)
include h hf hid hw

theorem write_at_end (hne : data ≠ []) (hend : writeOffset s.node f = s.node.size)
    (hmax : s.node.size + data.length ≤ AddressSpace.maxSize)
    (hroom : missingPages s.node.addrSpace s.node.size data.length ≤ s.vfs.pageCache.slab.free.length) :
    ∃ t, Vfs.write c fd data s.vfs =
        .ok data.length (setOffset t c.pid fd (s.node.size + data.length)) ∧
      Changed s.vfs t s.id fun b => b.write b.size data := by
  obtain ⟨t,ht,hch⟩ := writeNode_at_end h hne hmax hroom
  refine ⟨t,?_,hch⟩
  have hmut : (s.vfs.nodes s.id).immutable = false := h.mutable
  have hfile : writeFile s.id s.node.size data s.vfs = .ok data.length t := by
    simp only [writeFile,h.not_dir,hmut,reads,Bind.bind,EStateM.bind,Bool.false_eq_true,if_false]
    exact ht
  have hany : writeAny c f data s.vfs = .ok (s.node.size + data.length,data.length) t := by
    have hoff : writeOffset (s.vfs.nodes s.id) f = s.node.size := hend
    have hproc : (s.vfs.nodes s.id).fsType ≠ .procFS := h.fsType
    simp [writeAny,hid,hproc,h.not_device,hoff,hfile]
  have hemp : data.isEmpty = false := by simpa using hne
  simp only [Vfs.write,Bind.bind,EStateM.bind,reads,hf,check,hw,if_true,hid,h.valid,hemp,Bool.false_eq_true,
    if_false,Pure.pure,EStateM.pure]
  rw [hany]
  rfl

theorem write_empty : Vfs.write c fd [] s.vfs = .ok 0 s.vfs := by
  simp [Vfs.write,Bind.bind,EStateM.bind,reads,hf,check,hw,hid,h.valid,Pure.pure,EStateM.pure]

end

theorem writes_iff : s.writes c fd ↔
    ∃ f, s.vfs.getFd c.pid fd = .ok f ∧ f.vnodeId = s.id ∧ f.flags.writable := by
  rw [writes]
  cases s.vfs.getFd c.pid fd with
  | ok f => simp
  | error e => simp

theorem accepted_at_end (h : Inv s) (ha : s.AtEnd (.write c fd data)) (hw : s.writes c fd) :
    s.accepted c fd data = some data.length := by
  obtain ⟨f,hf,hid,hfw⟩ := writes_iff.mp hw
  obtain ⟨hend,hmax,hroom⟩ := ha f hf hid hfw
  by_cases hne : data = []
  · subst hne
    rw [accepted,write_empty h hf hid hfw]
    rfl
  · obtain ⟨t,ht,-⟩ := write_at_end h hf hid hfw hne hend hmax hroom
    rw [accepted,ht]

theorem write_inv (h : Inv s) (ha : s.AtEnd (.write c fd data)) : Inv (s.step (.write c fd data)) := by
  rw [step]
  split
  · next hw =>
    obtain ⟨f,hf,hid,hfw⟩ := writes_iff.mp hw
    obtain ⟨hend,hmax,hroom⟩ := ha f hf hid hfw
    rw [accepted_at_end h ha hw,Option.getD_some,take_length]
    by_cases hne : data = []
    · subst hne
      rw [final_of_ok (write_empty h hf hid hfw),append_nil]
      exact h
    · obtain ⟨t,ht,hch⟩ := write_at_end h hf hid hfw hne hend hmax hroom
      rw [final_of_ok ht]
      obtain ⟨size,a,hnode⟩ := hch.node
      have hsize : (t.nodes s.id).size = s.node.size + data.length := by
        have hfile : (t.fileOf s.id).size = _ := congrArg ByteFile.size (hch.file h.active)
        have hb : (s.vfs.fileOf s.id).size = s.node.size := rfl
        simp only [ByteFile.write,hb] at hfile
        rw [show (t.nodes s.id).size = (t.fileOf s.id).size from rfl,hfile]
        omega
      have hlen : s.sent.length = s.node.size := by
        rw [h.sent,ByteFile.length_contents]
        rfl
      have hpipe : (t.nodes s.id).active = true ∧ (t.nodes s.id).kind = .pipe ∧
          (t.nodes s.id).fsType ≠ .procFS ∧ (t.nodes s.id).immutable = false := by
        rw [hnode]
        exact ⟨h.active,h.kind,h.fsType,h.mutable⟩
      refine ⟨⟨?_,hpipe.2.1,hpipe.2.2.1,hpipe.2.2.2⟩,hch.filed.setOffset.1,?_,?_,?_⟩
      · have hv := h.valid
        simp only [validVnode,Bool.and_eq_true] at hv
        show (decide (s.id < maxVnodes) && (t.nodes s.id).active) = true
        rw [hpipe.1,hv.1]
        rfl
      · show s.sent ++ data = (t.fileOf s.id).contents
        rw [hch.file h.active,ByteFile.contents_write_end,h.sent]
      · show s.got = (s.sent ++ data).take s.readPos
        rw [take_append_of_le_length (by rw [hlen]; exact h.pos)]
        exact h.got
      · show s.readPos ≤ (t.nodes s.id).size
        have := h.pos
        omega
  · exact h

theorem foldl_retain {l : List Nat} :
    (l.foldl retain v).pageCache = v.pageCache ∧ (l.foldl retain v).vnodeFreeHint =
      v.vnodeFreeHint ∧ ∀ j, SameFile (v.nodes j) ((l.foldl retain v).nodes j) := by
  induction l generalizing v with
  | nil => exact ⟨rfl,rfl,fun _ => .refl⟩
  | cons a l ih =>
    have ha : (retain v a).pageCache = v.pageCache ∧ (retain v a).vnodeFreeHint = v.vnodeFreeHint ∧
        ∀ j, SameFile (v.nodes j) ((retain v a).nodes j) := by
      rw [retain]
      split
      · refine ⟨rfl,rfl,fun j => ?_⟩
        by_cases hj : j = a
        · subst hj
          simp only [mapNode,setNode,update_self]
          exact ⟨_,_,rfl⟩
        · simp only [mapNode,setNode,update_of_ne hj]
          exact .refl
      · exact ⟨rfl,rfl,fun _ => .refl⟩
    obtain ⟨hc,hh,hn⟩ := ih (v := retain v a)
    exact ⟨hc.trans ha.1,hh.trans ha.2.1,fun j => (ha.2.2 j).trans (hn j)⟩

theorem fork_inv (h : Inv s) : Inv (s.step (.fork parent child)) := by
  obtain ⟨hc,hh,hn⟩ := foldl_retain (v := s.vfs) (l := s.vfs.openNodes parent)
  have hfiled : Filed (forkFds s.vfs parent child) := by
    refine h.filed.of_nodes hc (fun pid fd f hf => ?_) (hh ▸ h.filed.hint) fun j => .inl (hn j)
    have hf' : update s.vfs.fdTables child (s.vfs.fdTables parent) pid fd = some f := hf
    by_cases hp : pid = child
    · subst hp
      rw [update_self] at hf'
      exact h.filed.offsets _ _ _ hf'
    · rw [update_of_ne hp] at hf'
      exact h.filed.offsets _ _ _ hf'
  obtain ⟨ch,r,hs⟩ := hn s.id
  have hnode : (forkFds s.vfs parent child).nodes s.id =
      { s.vfs.nodes s.id with children := ch, refcount := r } := hs
  have hfile : (forkFds s.vfs parent child).fileOf s.id = s.vfs.fileOf s.id := by
    refine fileOf_congr (by rw [hnode]) (by rw [hnode]) ?_
    have hc' : (forkFds s.vfs parent child).pageCache = s.vfs.pageCache := hc
    simp [MikuVfs.raw,hc',hnode]
  have hpipe : (s.step (.fork parent child)).node = { s.node with children := ch, refcount := r } := hnode
  refine ⟨⟨?_,by rw [hpipe]; exact h.kind,by rw [hpipe]; exact h.fsType,
    by rw [hpipe]; exact h.mutable⟩,hfiled,?_,
    h.got,by rw [hpipe]; exact h.pos⟩
  · have hv := h.valid
    simp only [validVnode] at hv ⊢
    show (decide (s.id < maxVnodes) && ((forkFds s.vfs parent child).nodes s.id).active) = true
    rw [hnode]
    exact hv
  · show s.sent = ((forkFds s.vfs parent child).fileOf s.id).contents
    rw [hfile]
    exact h.sent

theorem step_inv (h : Inv s) (ha : s.AtEnd o) : Inv (s.step o) := by
  cases o with
  | write c fd data => exact write_inv h ha
  | read n => exact tryRead_inv h
  | fork parent child => exact fork_inv h

/-- A pipe that has just been made. -/
structure Fresh (s : Pipe) : Prop extends IsPipe s where
  filed : Filed s.vfs
  size : s.node.size = 0
  readPos : s.readPos = 0
  sent : s.sent = []
  got : s.got = []

theorem Fresh.inv (h : Fresh s) : Inv s := by
  refine ⟨h.toIsPipe,h.filed,?_,?_,?_⟩
  · rw [h.sent]
    symm
    rw [← length_eq_zero_iff,ByteFile.length_contents]
    exact h.size
  · rw [h.got,h.sent,take_nil]
  · rw [h.readPos]
    exact Nat.zero_le _

/-- As long as every write stands at the end of the pipe, and finds room there, all writes are
taken, and what is read is the beginning of what was written. -/
theorem pipe_streams (s : Pipe) (hs : Fresh s) (os : List PipeOp) (ha : Along step AtEnd s os) :
    Streams (fun _ _ => true) s os := by
  have hi : Inv (s.run os) := ha.invariant (fun _ _ => step_inv) hs.inv
  refine ⟨?_,ha.imp_of_invariant Inv (fun s o h ha => ?_) (fun _ _ => step_inv) hs.inv⟩
  · rw [hi.got]
    exact take_prefix _ _
  · cases o with
    | write c fd data => exact fun hw => iff_of_true (accepted_at_end h ha hw) rfl
    | read n => trivial
    | fork parent child => trivial

/-- The first process has both ends of the pipe. -/
def ends : Pipe where
  vfs := { bare with
    nodes := fun id =>
      if id = 1 then { VNode.init 0 ['p'] .pipe .tmpFS 0o600 Credentials.root with nlinks := 0, refcount := 2 }
      else bare.nodes id
    fdTables := fun pid fd =>
      if pid = 1 ∧ fd = 3 then some ⟨1,⟨OpenFlags.read⟩,0⟩
      else if pid = 1 ∧ fd = 4 then some ⟨1,⟨OpenFlags.write⟩,0⟩
      else none
    vnodeFreeHint := 2 }
  id := 1
  readPos := 0
  sent := []
  got := []

theorem filed_ends : Filed ends.vfs := by
  refine filed_bare.of_nodes rfl (fun pid fd f hf => ?_) (by decide) fun j => ?_
  · simp only [ends] at hf
    split_ifs at hf <;> cases hf <;> decide
  · by_cases hj : j = 1
    · subst hj
      exact .inr fun _ => ⟨rfl,rfl,rfl⟩
    · refine .inl ?_
      simp only [ends,hj,if_false]
      exact .refl

theorem fresh_ends : Fresh ends :=
  ⟨⟨by decide,by decide,by decide,by decide⟩,filed_ends,by decide,rfl,rfl,rfl⟩

def process (pid : Nat) : Ctx := { kernel with pid := pid }

def oneWriter : List PipeOp := [.write (process 1) 4 [1,2],.read 1,.write (process 1) 4 [3],.read 8]

theorem pipe_streams_oneWriter :
    (ends.run oneWriter).got = [1,2,3] ∧ Streams (fun _ _ => true) ends oneWriter :=
  ⟨by decide +kernel,pipe_streams ends fresh_ends oneWriter (by decide +kernel)⟩

/-- The child writes where its parent has written: each has its own offset. -/
def twoWriters : List PipeOp := [.fork 1 2,.write (process 1) 4 [1],.write (process 2) 4 [2],.read 8]

theorem second_writer_overwrites : Fresh ends ∧ ∀ accept, ¬Streams accept ends twoWriters := by
  have hpre : ¬(ends.run twoWriters).got <+: (ends.run twoWriters).sent := by decide +kernel
  exact ⟨fresh_ends,fun _ h => hpre h.1⟩

end Miku.Vfs.Pipe
