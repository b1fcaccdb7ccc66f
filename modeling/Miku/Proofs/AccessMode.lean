import Miku.Proofs.TmpfsRuns
import Miku.Proofs.VmaSpans
import Miku.Syscall.Files

namespace Miku.Vfs
open Lib MikuVfs

variable {s t u : MikuVfs} {c : Ctx} {id fd : Nat}

/-- The files still in use are what they were. -/
structure Undisturbed (s t : MikuVfs) : Prop where
  owned : Owned t
  node : ∀ id, (t.nodes id).active = true → SameFile (s.nodes id) (t.nodes id)
  raw : ∀ id, (t.nodes id).active = true → t.raw id = s.raw id

theorem Undisturbed.refl (h : Owned s) : Undisturbed s s := ⟨h,fun _ _ => .refl,fun _ _ => rfl⟩

theorem SameFile.active (h : SameFile m n) : n.active = m.active := by
  obtain ⟨_,_,rfl⟩ := h
  rfl

theorem Undisturbed.trans (h : Undisturbed s t) (h' : Undisturbed t u) : Undisturbed s u := by
  have ha : ∀ id, (u.nodes id).active = true → (t.nodes id).active = true :=
    fun id hu => (h'.node id hu).active ▸ hu
  exact ⟨h'.owned,fun id hu => (h.node id (ha id hu)).trans (h'.node id hu),
    fun id hu => (h'.raw id hu).trans (h.raw id (ha id hu))⟩

section

variable (h : Owned s)
include h

theorem undisturbed_of_nodes (hc : t.pageCache = s.pageCache)
    (hn : ∀ id, SameFile (s.nodes id) (t.nodes id)) : Undisturbed s t := by
  refine ⟨h.congr hc fun j hj => ?_,fun j _ => hn j,fun j _ => ?_⟩
  · obtain ⟨_,_,he⟩ := hn j
    rw [he] at hj ⊢
    exact ⟨hj,rfl⟩
  · obtain ⟨_,_,he⟩ := hn j
    simp [MikuVfs.raw,hc,he]

theorem undisturbed_setFd :
    Undisturbed s (s.setFd pid fd f) := undisturbed_of_nodes h rfl fun _ => .refl

theorem undisturbed_mapNode {f : VNode → VNode} (hf : SameFile (s.nodes id) (f (s.nodes id))) :
    Undisturbed s (s.mapNode id f) := by
  refine undisturbed_of_nodes h rfl fun j => ?_
  by_cases hj : j = id
  · subst hj
    simpa [mapNode,setNode] using hf
  · simpa [mapNode,setNode,hj] using SameFile.refl

theorem undisturbed_touched (ht : Touched s.pageCache p) :
    Undisturbed s { s with pageCache := p } := by
  refine ⟨⟨ht.ok,fun j k q hj hq => ?_,h.inj⟩,fun _ _ => .refl,fun j _ => ?_⟩
  · rw [ht.slab]
    exact h.held j k q hj hq
  · funext i
    exact rawByte_congr fun q _ => by
      rw [ht.pages]

theorem undisturbed_freed (ha : (s.nodes id).active = true) :
    Undisturbed s ((s.freeFilePages id).dropVnode id) := by
  obtain ⟨hown,-,hother⟩ := @free_spec _ _ { s.nodes id with addrSpace := AddressSpace.new } 0
    h ha fun k => by
      unfold AddressSpace.getPage AddressSpace.new
      simp
  have hself : (((s.freeFilePages id).dropVnode id).nodes id).active = false := by
    simp [dropVnode,mapNode,setNode]
  have hne : ∀ j, (((s.freeFilePages id).dropVnode id).nodes j).active = true → j ≠ id := by
    rintro j hj rfl
    rw [hself] at hj
    cases hj
  have hnode : ∀ j, j ≠ id → ((s.freeFilePages id).dropVnode id).nodes j = s.nodes j :=
    fun j hj => Function.update_of_ne hj _ _
  refine ⟨hown.fewer rfl fun j k p hj hp => ?_,fun j hj => ?_,fun j hj => ?_⟩
  · have hji := hne j hj
    rw [hnode j hji] at hj hp
    simpa [setNode,hji] using And.intro hj hp
  · rw [hnode j (hne j hj)]
    exact .refl
  · have hji := hne j hj
    rw [hnode j hji] at hj
    have hr := hother j hji hj
    unfold MikuVfs.raw at hr ⊢
    rw [hnode j hji,← hr]
    simp [setNode,hji,dropVnode,mapNode,freeFilePages]

theorem undisturbed_releaseRef : Undisturbed s (releaseRef s id) := by
  unfold releaseRef
  split
  · rename_i hv
    simp only [Bool.and_eq_true] at hv
    have hd : Undisturbed s (s.mapNode id VNode.decRef) := undisturbed_mapNode h ⟨_,_,rfl⟩
    dsimp only
    split
    · refine hd.trans (undisturbed_freed hd.owned ?_)
      simpa [mapNode,setNode,VNode.decRef] using active_of_valid hv.1
    · exact hd
  · exact .refl h

theorem undisturbed_retain : Undisturbed s (retain s id) := by
  unfold retain
  split
  · exact undisturbed_mapNode h ⟨_,_,rfl⟩
  · exact .refl h

end

section

variable {α β : Type} {x : VfsM α} {f : α → VfsM β}

/-- However the call ends, it disturbed no file. -/
def Gentle (x : VfsM α) (s : MikuVfs) : Prop :=
  Wp x s (fun _ t => Undisturbed s t) (fun _ t => Undisturbed s t)

theorem Gentle.bind (hx : Gentle x s) (hf : ∀ a t, x s = .ok a t → Owned t → Gentle (f a) t) :
    Gentle (x >>= f) s :=
  Wp.seq Undisturbed.trans hx fun a t he => hf a t he (Wp.ok hx he).owned

theorem Gentle.pure (h : Owned s) : Gentle (Pure.pure a : VfsM α) s := Undisturbed.refl h

theorem Gentle.reads {g : MikuVfs → Except VfsError α} (ho : Owned s)
    (h : ∀ a, g s = .ok a → Gentle (f a) s) : Gentle (Lib.reads g >>= f) s :=
  Wp.look (.refl ho) h

theorem Gentle.check {f : PUnit → VfsM β} (ho : Owned s)
    (h : b = true → Gentle (f ⟨⟩) s) : Gentle (Lib.check b e >>= f) s :=
  Wp.bind (Wp.check h fun _ => .refl ho)

theorem Gentle.update {g : MikuVfs → MikuVfs} (h : Undisturbed s (g s)) :
    Gentle (modify g : VfsM PUnit) s := h

theorem Gentle.final (h : Gentle x s) : Undisturbed s (Lib.final x s) := Wp.final h

end

variable {n : Nat}

section

variable (h : Owned s)
include h

theorem gentle_readNode (ha : (s.nodes id).active = true) : Gentle (readNode id off n) s := by
  unfold Gentle Wp readNode
  cases hst : (s.nodes id).staticData with
  | some sd => exact .refl h
  | none =>
    by_cases hle : (s.nodes id).size ≤ off
    · rw [if_pos hle]
      exact .refl h
    · rw [if_neg hle]
      exact undisturbed_touched h (readLoop_spec h.cache (fun k p hp => h.held id k p ha hp)
        .refl).2

theorem gentle_read : Gentle (Vfs.read c fd n) s := by
  refine .reads h fun f _ => .check h fun _ => .reads h fun _ hv => ?_
  have ha := active_of_valid (of_if_ok hv)
  split
  · exact .pure h
  refine .bind ?_ fun bs t _ ht => .bind (.update ?_) fun _ u _ hu => .pure hu
  · unfold Gentle Wp readAny
    cases (s.nodes f.vnodeId).answer c with
    | some r =>
      cases r with
      | ok bytes => exact .refl h
      | error e => exact .refl h
    | none =>
      by_cases hd : (s.nodes f.vnodeId).isDir = true
      · rw [if_pos hd]
        exact .refl h
      · rw [if_neg hd]
        exact gentle_readNode h ha
  · exact undisturbed_of_nodes ht rfl fun _ => .refl

theorem gentle_readAtVnode : Gentle (Vfs.readAtVnode id off n) s := by
  unfold Gentle Wp Vfs.readAtVnode
  by_cases hz : (!s.validVnode id || decide (n = 0)) = true
  · rw [if_pos hz]
    exact .refl h
  rw [if_neg hz]
  simp only [Bool.or_eq_true,Bool.not_eq_true',not_or,Bool.not_eq_false] at hz
  by_cases hd : (s.nodes id).isDir = true
  · rw [if_pos hd]
    exact .refl h
  · rw [if_neg hd]
    exact gentle_readNode h (active_of_valid hz.1)

theorem gentle_seek : Gentle (Vfs.seek c fd whence) s := by
  refine .reads h fun f _ => .reads h fun _ _ => .reads h fun _ _ => .check h fun _ => ?_
  exact .bind (.update (undisturbed_of_nodes h rfl fun _ => .refl)) fun _ _ _ ht => .pure ht

theorem gentle_close : Gentle (Vfs.close c fd) s := by
  refine .reads h fun f _ => .update ?_
  have hf : Undisturbed s (s.setFd c.pid fd none) := undisturbed_setFd h
  exact hf.trans (undisturbed_releaseRef hf.owned)

theorem gentle_dup : Gentle (Vfs.dup c fd) s := by
  refine .reads h fun f _ => .bind ?_ fun _ t _ ht => .bind (.update (undisturbed_retain ht))
    fun _ _ _ hu => .pure hu
  unfold Gentle Wp fdAlloc
  cases s.freeFd c.pid with
  | none => exact .refl h
  | some fd => exact undisturbed_setFd h

theorem gentle_dup2 : Gentle (sysDup2 c fd newFd) s := by
  unfold sysDup2
  split
  · exact .pure h
  refine .reads h fun f _ => .bind (.update (gentle_close h).final) fun _ t _ ht => .bind ?_
    fun _ u _ hu => .bind (.update (undisturbed_retain hu)) fun _ _ _ hw => .pure hw
  unfold Gentle Wp fdAllocAt
  by_cases hle : maxOpenFiles ≤ newFd
  · rw [if_pos hle]
    exact .refl ht
  rw [if_neg hle]
  split_ifs
  · exact .refl ht
  · exact undisturbed_setFd ht

end

end Miku.Vfs

namespace Miku.Syscall
open Lib Vfs Mm Function Option

variable {s t : Sys} {c : Ctx} {id pid : Nat}

/-- Of the mappings of a process: no page that may be written back belongs to a file. -/
structure MapsOk (m : VmaMap) (resident : Nat → Option Resident) : Prop where
  tidy : Tidy m.vmas
  mapped : ∀ p r, resident p = some r → ∃ prot b, Mapped m.vmas p prot b
  clean : ∀ p r prot b, resident p = some r → r.writable = true ∨ r.dirty = true →
    Mapped m.vmas p prot (some b) → b.shared = false
  shared : ∀ p prot b, Mapped m.vmas p prot (some b) → b.shared = true → protHas prot protWrite = false

structure Guarded (s : Sys) : Prop where
  owned : Owned s.vfs
  maps : ∀ pid, MapsOk (s.vmas pid) (s.resident pid)

/-- Files still in use are what they were; on the volume nothing has changed. The size a
node has for a file on the volume may be read again. -/
structure Kept (s t : Sys) : Prop where
  ext : t.ext = s.ext
  ino : t.ext2Ino = s.ext2Ino
  node : ∀ id, (t.vfs.nodes id).active = true → ∃ size children refcount,
    t.vfs.nodes id = { s.vfs.nodes id with size := size, children := children, refcount := refcount } ∧
      (s.isExtBacked id = false → size = (s.vfs.nodes id).size)
  raw : ∀ id, (t.vfs.nodes id).active = true → t.vfs.raw id = s.vfs.raw id

theorem Kept.refl : Kept s s := ⟨rfl,rfl,fun _ _ => ⟨_,_,_,rfl,fun _ => rfl⟩,fun _ _ => rfl⟩

theorem Kept.active (h : Kept s t) (ha : (t.vfs.nodes id).active = true) :
    (s.vfs.nodes id).active = true := by
  obtain ⟨_,_,_,hn,-⟩ := h.node id ha
  rw [hn] at ha
  exact ha

theorem Kept.backed (h : Kept s t) (ha : (t.vfs.nodes id).active = true) :
    t.isExtBacked id = s.isExtBacked id := by
  obtain ⟨_,_,_,hn,-⟩ := h.node id ha
  simp [Sys.isExtBacked,hn,h.ino]

theorem Kept.trans (h : Kept s t) (h' : Kept t u) : Kept s u := by
  refine ⟨h'.ext.trans h.ext,h'.ino.trans h.ino,fun id hu => ?_,fun id hu => ?_⟩
  · have ht := h'.active hu
    obtain ⟨z,ch,r,hn,hz⟩ := h.node id ht
    obtain ⟨z',ch',r',hn',hz'⟩ := h'.node id hu
    refine ⟨z',ch',r',?_,fun he => ?_⟩
    · rw [hn',hn]
    · rw [hz' (by rw [h.backed ht,he]),hn]
      exact hz he
  · exact (h'.raw id hu).trans (h.raw id (h'.active hu))

/-- The size of a file and what reading it gives. -/
def Sys.contents (s : Sys) (id : Nat) : Nat × (Nat → Nat → Except SysError (List UInt8)) :=
  if s.isExtBacked id then
    match s.readInode id with
    | .ok (_,i) => (i.size,fun off n => (readVolume s id off n).map Prod.fst)
    | .error e => (0,fun _ _ => .error e)
  else ((s.vfs.fileOf id).size,fun off n => .ok ((s.vfs.fileOf id).read off n))

theorem Kept.contents (h : Kept s t) (ha : (t.vfs.nodes id).active = true) :
    t.contents id = s.contents id := by
  have hread : t.readInode id = s.readInode id := by simp [Sys.readInode,h.ext,h.ino]
  have hvol : readVolume t id = readVolume s id := by
    funext off n
    simp [readVolume,hread]
  unfold Sys.contents
  rw [h.backed ha,hread,hvol]
  by_cases hb : s.isExtBacked id = true
  · rw [if_pos hb,if_pos hb]
  · rw [if_neg hb,if_neg hb]
    obtain ⟨z,ch,r,hn,hz⟩ := h.node id ha
    have hfile : t.vfs.fileOf id = s.vfs.fileOf id := by
      refine fileOf_congr ?_ (by rw [hn]) (h.raw id ha)
      rw [hn]
      exact hz (by simpa using hb)
    rw [hfile]

variable {v : MikuVfs}

theorem Guarded.of_vfs (h : Guarded s) (ho : Owned v) : Guarded { s with vfs := v } := ⟨ho,h.maps⟩

def Safe (s t : Sys) : Prop := Guarded t ∧ Kept s t

theorem Safe.refl (h : Guarded s) : Safe s s := ⟨h,.refl⟩

theorem Safe.trans (h : Safe s t) (h' : Safe t u) : Safe s u := ⟨h'.1,h.2.trans h'.2⟩

theorem safe_of_undisturbed (h : Guarded s) (hu : Undisturbed s.vfs v) :
    Safe s { s with vfs := v } := by
  refine ⟨h.of_vfs hu.owned,rfl,rfl,fun id ha => ?_,hu.raw⟩
  obtain ⟨ch,r,hn⟩ := hu.node id ha
  exact ⟨_,ch,r,hn,fun _ => rfl⟩

variable {size : Nat}

theorem safe_setSize (h : Guarded s) (hb : s.isExtBacked id = true) :
    Safe s (s.setSize id size) := by
  have hself : ((s.setSize id size).vfs.nodes id) = { s.vfs.nodes id with size := size } :=
    update_self _ _ _
  have hnode : ∀ j, j ≠ id → (s.setSize id size).vfs.nodes j = s.vfs.nodes j :=
    fun j hj => update_of_ne hj _ _
  have hown : Owned (s.setSize id size).vfs := by
    refine h.owned.congr rfl fun j hj => ?_
    by_cases hji : j = id
    · subst hji
      rw [hself] at hj ⊢
      exact ⟨hj,rfl⟩
    · rw [hnode j hji] at hj ⊢
      exact ⟨hj,rfl⟩
  refine ⟨h.of_vfs hown,rfl,rfl,fun j _ => ?_,fun j _ => ?_⟩
  · by_cases hji : j = id
    · subst hji
      refine ⟨size,_,_,hself,fun hn => ?_⟩
      rw [hb] at hn
      cases hn
    · rw [hnode j hji]
      exact ⟨_,_,_,rfl,fun _ => rfl⟩
  · unfold MikuVfs.raw
    by_cases hji : j = id
    · subst hji
      rw [hself]
      rfl
    · rw [hnode j hji]
      rfl

section

variable {α β : Type} {x : SysM α} {f : α → SysM β}

/-- However the call ends, it was safe. -/
def Safely (x : SysM α) (s : Sys) : Prop := Wp x s (fun _ t => Safe s t) (fun _ t => Safe s t)

theorem Safely.bind (hx : Safely x s) (hf : ∀ a t, x s = .ok a t → Guarded t → Safely (f a) t) :
    Safely (x >>= f) s :=
  Wp.seq Safe.trans hx fun a t he => hf a t he (Wp.ok hx he).1

theorem Safely.pure (h : Guarded s) : Safely (Pure.pure a : SysM α) s := Safe.refl h

theorem Safely.reads {g : Sys → Except SysError α} (hg : Guarded s)
    (h : ∀ a, g s = .ok a → Safely (f a) s) : Safely (Lib.reads g >>= f) s :=
  Wp.look (.refl hg) h

theorem Safely.check {f : PUnit → SysM β} (hg : Guarded s)
    (h : b = true → Safely (f ⟨⟩) s) : Safely (Lib.check b e >>= f) s :=
  Wp.bind (Wp.check h fun _ => .refl hg)

theorem Safely.update {g : Sys → Sys} (h : Safe s (g s)) : Safely (modify g : SysM PUnit) s := h

theorem Safely.final (h : Safely x s) : Safe s (Lib.final x s) := Wp.final h

theorem onVfs_safe {x : VfsM α} (hg : Guarded s) (h : Gentle x s.vfs) :
    Wp (onVfs x) s (fun _ t => Safe s t ∧ t.vmas = s.vmas) (fun _ t => Safe s t) := by
  unfold Gentle Wp at h
  unfold Wp onVfs
  cases hx : x s.vfs with
  | ok a t =>
    rw [hx] at h
    exact ⟨safe_of_undisturbed hg h,rfl⟩
  | error e t =>
    rw [hx] at h
    exact safe_of_undisturbed hg h

theorem safely_onVfs {x : VfsM α} (hg : Guarded s) (h : Gentle x s.vfs) : Safely (onVfs x) s :=
  (onVfs_safe hg h).imp (fun _ _ hx => hx.1) fun _ _ hx => hx

variable {g : MikuVfs → Except VfsError α}

theorem wp_onVfs_reads {Q : α → Sys → Prop} {E : SysError → Sys → Prop}
    (h : ∀ a, g s.vfs = .ok a → Q a s) (he : ∀ e, E e s) : Wp (onVfs (Lib.reads g)) s Q E := by
  unfold Wp onVfs Lib.reads
  cases hx : g s.vfs with
  | ok a => exact h a hx
  | error e => exact he _

theorem Safely.vfs (hg : Guarded s)
    (h : ∀ a, g s.vfs = .ok a → Safely (f a) s) : Safely (onVfs (Lib.reads g) >>= f) s :=
  Wp.bind (wp_onVfs_reads h fun _ => .refl hg)

theorem Safely.opened {ok : OpenFile → Bool} {f : OpenFile → SysM β} (hg : Guarded s)
    (h : ∀ o, s.vfs.getFd c.pid fd = .ok o → ok o = true → s.vfs.validVnode o.vnodeId = true →
      Safely (f o) s) : Safely (openFile c fd ok >>= f) s := by
  refine Wp.bind (Wp.bind (wp_onVfs_reads (fun o ho => ?_) fun _ => .refl hg))
  refine Wp.bind (Wp.check (fun hok => ?_) fun _ => .refl hg)
  exact Wp.bind (wp_onVfs_reads (fun _ hv => h o ho hok (of_if_ok hv)) fun _ => .refl hg)

end

theorem backed_of_onVolume (h : s.onVolume id = true) : s.isExtBacked id = true := by
  simp only [Sys.onVolume,Bool.and_eq_true] at h
  exact h.2

section

variable (h : Guarded s)
include h

theorem safe_setOffset : Safe s { s with vfs := setOffset s.vfs pid fd n } :=
  safe_of_undisturbed h (undisturbed_of_nodes h.owned rfl fun _ => .refl)

theorem safely_read : Safely (read c fd n) s := by
  refine .opened h fun f _ _ _ => ?_
  split
  · exact .pure h
  refine Wp.bind (Wp.get ?_)
  split
  · rename_i hv
    refine Safely.reads h fun r _ => .bind (.update ?_) fun _ t _ ht => .bind (.update (safe_setOffset ht))
      fun _ u _ hu => .pure hu
    split
    · exact safe_setSize h (backed_of_onVolume hv)
    · exact .refl h
  · exact safely_onVfs h (gentle_read h.owned)

theorem safely_write (hr : ∀ f, s.vfs.getFd c.pid fd = .ok f → f.flags.writable = false) :
    Safely (write c fd data) s := by
  refine .opened h fun f hf hw _ => ?_
  rw [hr f hf] at hw
  cases hw

theorem safe_refreshSize : Safe s (s.ext2RefreshSize id) := by
  unfold Sys.ext2RefreshSize
  split
  · exact .refl h
  · rename_i hb
    split
    · exact safe_setSize h (by simpa using hb)
    · exact .refl h

theorem safely_fstat : Safely (fstat c fd) s := by
  refine .opened h fun f _ _ _ => .bind (.update (safe_refreshSize h)) fun _ t _ ht => ?_
  exact Wp.bind (Wp.get (Wp.pure (.refl ht)))

end

theorem truncateTo_self (hn : n = (s.vfs.nodes id).size) : truncateTo s id n = s := by
  subst hn
  have hnode : Vfs.truncateTo s.vfs id (s.vfs.nodes id).size = s.vfs := by
    unfold Vfs.truncateTo
    rw [if_pos .refl]
    simp [MikuVfs.mapNode,MikuVfs.setNode]
  simp [truncateTo,hnode]

theorem safely_truncate (h : Guarded s)
    (hn : ∀ f, s.vfs.getFd c.pid fd = .ok f → n = (s.vfs.nodes f.vnodeId).size) :
    Safely (truncate c fd n) s := by
  refine .opened h fun f hf _ _ => .update ?_
  rw [truncateTo_self (hn f hf)]
  exact .refl h

theorem safely_reshape {change : Nat → Ext.FsM Unit} (h : Guarded s)
    (hn : len = 0 ∨ s.ext.isNone = true ∨ ∀ f, s.vfs.getFd c.pid fd = .ok f → s.ext2Ino f.vnodeId = 0) :
    Safely (reshape c fd len change) s := by
  refine .check h fun hlen => .vfs h fun f hf => Wp.bind (Wp.get ?_)
  refine Safely.check h fun hino => ?_
  have hext : s.ext = none := by
    rcases hn with rfl | he | hz
    · simp at hlen
    · exact isNone_iff_eq_none.mp he
    · simp [hz f hf] at hino
  refine Wp.bind (Wp.of_ok (a := none) (t := s) ?_ (Wp.throw (.refl h)))
  have hnone : withExt2 (change (s.ext2Ino f.vnodeId)) s = (none,s) := by simp [withExt2,hext]
  exact congrArg (fun r => EStateM.Result.ok r.1 r.2) hnone

theorem safely_fsync (h : Guarded s) : Safely (fsync c fd) s := by
  exact .vfs h fun _ _ => .pure h

variable {m : VmaMap} {a : Nat}

theorem mapped_of_find {v : Vma} (h : Tidy m.vmas) (hf : m.find a = some v) :
    Mapped m.vmas a v.prot (v.backingAt a) := by
  unfold VmaMap.find at hf
  split at hf
  · cases hf
  · rename_i k w hl
    split at hf
    · rename_i hlt
      cases hf
      have hm := List.mem_of_getLast? hl
      obtain ⟨hm,hle⟩ := List.mem_filter.mp hm
      have hk := h.keyed k v hm
      have hle : k ≤ a := by simpa using hle
      exact ⟨k,v,hm,⟨by omega,hlt⟩,rfl,rfl⟩
    · cases hf

variable {prot : Nat}

theorem mapped_unique (h : Tidy vmas)
    (hm : Mapped vmas a prot b) (hm' : Mapped vmas a prot' b') : prot = prot' ∧ b = b' := by
  obtain ⟨k,v,hv,hc,rfl,rfl⟩ := hm
  obtain ⟨k',w,hw,hc',rfl,rfl⟩ := hm'
  obtain rfl := h.point_unique hv hw hc hc'
  exact ⟨rfl,rfl⟩

variable {p : Nat}

theorem writebackPage_eq (h : Guarded s) : writebackPage pid s p = s := by
  unfold writebackPage
  split
  · rename_i start e prot b r hf hr
    dsimp only
    split
    · rename_i hd
      simp only [Bool.and_eq_true] at hd
      have hm := mapped_of_find (h.maps pid).tidy hf
      have hb : b.shared = false :=
        (h.maps pid).clean p r prot (b.advance (p - start)) hr (.inr hd.1.2) hm
      rw [hb] at hd
      cases hd.1.1
    · rfl
  · rfl

variable {e : Nat}

theorem writebackFileRange_eq (h : Guarded s) : writebackFileRange s pid start e = s := by
  unfold writebackFileRange
  induction pagesOf (pageBase start) e with
  | nil => rfl
  | cons p ps ih => rw [List.foldl_cons,writebackPage_eq h,ih]

theorem safe_remap {m : VmaMap} {res : Nat → Option Resident} (h : Guarded s) (hm : MapsOk m res) :
    Safe s { s with
      vmas := update s.vmas pid m
      resident := update s.resident pid res } := by
  refine ⟨⟨h.owned,fun q => ?_⟩,rfl,rfl,fun _ _ => ⟨_,_,_,rfl,fun _ => rfl⟩,fun _ _ => rfl⟩
  by_cases hq : q = pid
  · subst hq
    simpa using hm
  · simpa [update_of_ne hq] using h.maps q

section

variable {m m' : VmaMap} {res res' : Nat → Option Resident} {a e : Nat} {v : Vma}

theorem MapsOk.cut (h : MapsOk m res) (hlt : a < e) :
    MapsOk (m.removeRange a e) fun p => if a ≤ p ∧ p < e then none else res p := by
  obtain ⟨ht,hv,hsame⟩ := remove_range_spec h.tidy hlt.le
  have hmap : ∀ p prot b, Mapped (m.removeRange a e).vmas p prot b →
      ¬ (a ≤ p ∧ p < e) ∧ Mapped m.vmas p prot b := by
    intro p prot b hp
    have hno : ¬ (a ≤ p ∧ p < e) := by
      obtain ⟨k,w,hw,⟨hlo,hhi⟩,-⟩ := hp
      have := hv k w hw
      omega
    exact ⟨hno,(hsame p prot b (by omega)).mp hp⟩
  refine ⟨ht,fun p r hr => ?_,fun p r prot b hr hw hp => ?_,fun p prot b hp => ?_⟩
  · split at hr
    · cases hr
    obtain ⟨prot,b,hm⟩ := h.mapped p r hr
    exact ⟨prot,b,(hsame p prot b (by omega)).mpr hm⟩
  · obtain ⟨hno,hm⟩ := hmap p prot (some b) hp
    rw [if_neg hno] at hr
    exact h.clean p r prot b hr hw hm
  · exact h.shared p prot b (hmap p prot (some b) hp).2

/-- A new mapping where there was none. Its pages are not there yet, unless it is
anonymous. -/
theorem MapsOk.add (h : MapsOk m res) (hp : v.start < v.end_) (hv : Vacant m.vmas v.start v.end_)
    (hout : ∀ p, ¬ (v.start ≤ p ∧ p < v.end_) → res' p = res p)
    (hin : ∀ p r, v.start ≤ p ∧ p < v.end_ → res' p = some r → v.backing = none)
    (hb : ∀ b, v.backing = some b → b.shared = true → protHas v.prot protWrite = false) :
    MapsOk (m.insertMerged v) res' := by
  obtain ⟨ht,hmap⟩ := insert_merged_spec h.tidy hp hv
  have hold : ∀ p prot b, Mapped m.vmas p prot b → ¬ (v.start ≤ p ∧ p < v.end_) := by
    rintro p prot b ⟨k,w,hw,⟨hlo,hhi⟩,-⟩ hi
    have := hv k w hw
    omega
  refine ⟨ht,fun p r hr => ?_,fun p r prot b hr hw hm => ?_,fun p prot b hm hs => ?_⟩
  · by_cases hi : v.start ≤ p ∧ p < v.end_
    · exact ⟨v.prot,v.backingAt p,(hmap _ _ _).mpr (.inr ⟨hi,rfl,rfl⟩)⟩
    · rw [hout p hi] at hr
      obtain ⟨prot,b,hm⟩ := h.mapped p r hr
      exact ⟨prot,b,(hmap _ _ _).mpr (.inl hm)⟩
  · rcases (hmap p prot (some b)).mp hm with hm | ⟨hi,rfl,hba⟩
    · rw [hout p (hold p prot (some b) hm)] at hr
      exact h.clean p r prot b hr hw hm
    · rw [Vma.backingAt,hin p r hi hr] at hba
      cases hba
  · rcases (hmap p prot (some b)).mp hm with hm | ⟨hi,rfl,hba⟩
    · exact h.shared p prot b hm hs
    · obtain ⟨b',hb',rfl⟩ := map_eq_some_iff.mp hba
      exact hb b' hb' hs

end

variable {addr length flags : Nat}

theorem placeFile_safe {b : FileBacking} (h : Guarded s)
    (hb : b.shared = true → protHas prot protWrite = false)
    (hp : placeFile s pid addr length prot flags b = .ok t) : Safe s t := by
  unfold placeFile at hp
  split at hp
  · cases hp
  split at hp
  · cases hp
  rename_i size _
  split at hp
  · split at hp
    · cases hp
    rename_i hok
    have hpos : addr < addr + size := by
      cases hu : userEndFor addr size with
      | none => exact absurd (.inr (.inr hu)) hok
      | some e =>
        obtain ⟨rfl,hlt,-⟩ := user_end_for_some hu
        exact hlt
    rw [writebackFileRange_eq h] at hp
    cases hp
    obtain ⟨-,hv,-⟩ := remove_range_spec (h.maps pid).tidy hpos.le
    refine safe_remap h (((h.maps pid).cut hpos).add (v := ⟨addr,addr + size,prot,some b⟩) hpos hv
      (fun _ _ => rfl) ?_ ?_)
    · intro p r hi hr
      rw [if_pos hi] at hr
      cases hr
    · intro b' hb' hs
      cases hb'
      exact hb hs
  · split at hp
    · cases hp
    rename_i base m hf
    cases hp
    obtain ⟨base',hfree,hf⟩ := bind_eq_some_iff.mp hf
    obtain ⟨e,he,hf⟩ := map_eq_some_iff.mp hf
    cases hf
    obtain ⟨hpos,hv⟩ := find_free_spec (h.maps pid).tidy hfree
    obtain rfl : e = base + size := by
      unfold checkedAdd at he
      split at he
      · exact (some.inj he).symm
      · cases he
    have hm := @MapsOk.add _ _ (s.resident pid) ⟨base,base + size,prot,some b⟩ (h.maps pid)
      (Nat.lt_add_of_pos_right hpos) hv.vacant (fun _ _ => rfl) ?_ ?_
    · have hsafe := @safe_remap _ pid _ _ h hm
      rw [update_eq_self] at hsafe
      exact hsafe
    · -- a page that is there is mapped, and here nothing was
      intro p r hi hr
      obtain ⟨prot,b,k,w,hw,⟨hlo,hhi⟩,-⟩ := (h.maps pid).mapped p r hr
      have := hv.vacant k w hw
      dsimp only at hi
      omega
    · intro b' hb' hs
      cases hb'
      exact hb hs

theorem safely_fdBacking (h : Guarded s) : Safely (fdBacking c fd) s := by
  refine .opened h fun f _ _ _ => .vfs h fun _ _ => .bind (.update ?_) fun _ t _ ht => .pure ht
  by_cases hb : s.isExtBacked f.vnodeId = true
  · rw [if_pos hb]
    split
    · split
      · exact safe_setSize h hb
      · exact .refl h
    · exact .refl h
  · rw [if_neg hb]
    exact .refl h

theorem safely_mmapFile (h : Guarded s)
    (hb : protHas flags mapShared = true → protHas prot protWrite = false) :
    Safely (mmapFile c addr length prot flags fd offset) s := by
  unfold mmapFile
  refine .check h fun _ => (safely_fdBacking h).bind fun f t _ ht => ?_
  unfold Safely Wp
  dsimp only
  cases hp : placeFile t c.pid addr length prot flags
    ⟨f.vnodeId,offset,(t.vfs.nodes f.vnodeId).size,protHas flags mapShared⟩ with
  | ok u => exact placeFile_safe ht hb hp
  | error e => exact .refl ht

variable {r : Resident}

theorem MapsOk.page {res : Nat → Option Resident} (h : MapsOk m res)
    (hp : ∃ prot b, Mapped m.vmas p prot b)
    (hc : r.writable = true ∨ r.dirty = true → ∀ prot b, Mapped m.vmas p prot (some b) → b.shared = false) :
    MapsOk m (update res p (some r)) := by
  refine ⟨h.tidy,fun q x hx => ?_,fun q x prot b hx hw hq => ?_,h.shared⟩
  · by_cases hqp : q = p
    · subst hqp
      exact hp
    · rw [update_of_ne hqp] at hx
      exact h.mapped q x hx
  · by_cases hqp : q = p
    · subst hqp
      rw [update_self] at hx
      cases hx
      exact hc hw prot b hq
    · rw [update_of_ne hqp] at hx
      exact h.clean q x prot b hx hw hq

theorem safe_setPage (h : Guarded s)
    (hm : MapsOk (s.vmas pid) (update (s.resident pid) p (some r))) :
    Safe s (s.setPage pid p (some r)) := by
  have hs := @safe_remap _ pid _ _ h hm
  rw [update_eq_self] at hs
  exact hs

theorem safe_faulted {v : Vma} {data : Bytes} (h : Guarded s) (hf : (s.vmas pid).find p = some v) :
    Safe s (s.setPage pid p (some ⟨data,protHas v.prot protWrite,false⟩)) := by
  have hm := mapped_of_find (h.maps pid).tidy hf
  refine safe_setPage h ((h.maps pid).page ⟨_,_,hm⟩ fun hw prot b hb => ?_)
  cases hs : b.shared with
  | false => rfl
  | true =>
    have hno := (h.maps pid).shared p prot b hb hs
    rw [(mapped_unique (h.maps pid).tidy hb hm).1] at hno
    rcases hw with hw | hw
    · rw [hno] at hw
      cases hw
    · cases hw

theorem readAtVnode_safe {off n : Nat} (h : Guarded s) :
    Wp (readAtVnode id off n) s (fun _ t => Safe s t ∧ t.vmas = s.vmas) (fun _ t => Safe s t) := by
  unfold Wp readAtVnode
  by_cases hv : (s.vfs.validVnode id && n != 0 && s.isExtBacked id && !(s.vfs.nodes id).isDir) = true
  · rw [if_pos hv]
    cases readVolume s id off n with
    | ok r => exact ⟨.refl h,rfl⟩
    | error e => exact .refl h
  · rw [if_neg hv]
    exact onVfs_safe h (gentle_readAtVnode h.owned)

theorem safely_touch (h : Guarded s) : Safely (touch pid addr) s := by
  unfold Safely Wp touch
  dsimp only
  cases hr : s.resident pid (pageBase addr) with
  | some r => exact .refl h
  | none =>
    cases hf : (s.vmas pid).find (pageBase addr) with
    | none => exact .refl h
    | some v =>
      dsimp only
      cases hb : v.backing with
      | none => exact safe_faulted h hf
      | some b =>
        dsimp only
        generalize (b.fileOff + (pageBase addr - v.start)) % 18446744073709551616 = off
        by_cases ho : off < b.fileSize
        · have hw := @readAtVnode_safe _ b.vnodeId off (min (b.fileSize - off) Mm.pageSize) h
          unfold Wp at hw
          rw [if_pos ho]
          cases hread : readAtVnode b.vnodeId off (min (b.fileSize - off) Mm.pageSize) s with
          | ok bytes t =>
            rw [hread] at hw
            exact hw.1.trans (safe_faulted hw.1.1 (by rw [hw.2]; exact hf))
          | error e t =>
            rw [hread] at hw
            exact hw
        · rw [if_neg ho]
          exact safe_faulted h hf

theorem safe_store (h : Guarded s) : Safe s (store s pid addr byte) := by
  unfold store
  split
  · rename_i r hr
    split
    · rename_i hw
      refine safe_setPage h ((h.maps pid).page ((h.maps pid).mapped _ r hr) fun _ prot b hb => ?_)
      exact (h.maps pid).clean _ r prot b hr (.inl hw) hb
    · exact .refl h
  · exact .refl h

theorem safe_msync (h : Guarded s) : Safe s (msync s pid addr length) := by
  unfold msync
  split
  · exact .refl h
  split
  · exact .refl h
  · rw [writebackFileRange_eq h]
    exact .refl h

theorem rangeOf_some (h : rangeOf addr length = some (size,e)) : addr < e := by
  obtain ⟨size',-,h⟩ := bind_eq_some_iff.mp h
  obtain ⟨e',he,h⟩ := map_eq_some_iff.mp h
  cases h
  exact (user_end_for_some he).2.1

theorem safe_munmap (h : Guarded s) : Safe s (munmap s pid addr length) := by
  unfold munmap
  split
  · exact .refl h
  split
  · exact .refl h
  · rename_i size e he
    have hlt := rangeOf_some he
    rw [writebackFileRange_eq h]
    exact safe_remap h ((h.maps pid).cut hlt)

theorem safe_mprotect (h : Guarded s) : Safe s (mprotect s pid addr length prot) := by
  unfold mprotect
  split
  · exact .refl h
  split
  · exact .refl h
  · rename_i size e he
    have hlt := rangeOf_some he
    obtain ⟨-,hv,-⟩ := remove_range_spec (h.maps pid).tidy hlt.le
    refine safe_remap h (((h.maps pid).cut hlt).add (v := ⟨addr,e,prot,none⟩) hlt hv
      (fun p hi => ?_) (fun _ _ _ _ => rfl)
      fun b hb => nomatch hb)
    rw [if_neg hi,if_neg hi]

/-- The call is made through a descriptor opened without write access, or on a mapping. -/
def ReadOnly (s : Sys) : Call → Prop
  | .read c fd _ | .write c fd _ | .seek c fd _ | .fstat c fd | .dup c fd | .dup2 c fd _ | .close c fd
  | .truncate c fd _ | .fallocate c fd _ _ | .punchHole c fd _ _ | .fsync c fd
  | .mmapFile c _ _ _ _ fd _ => ∀ f, s.vfs.getFd c.pid fd = .ok f → f.flags.writable = false
  | .touch .. | .store .. | .msync .. | .munmap .. | .mprotect .. => True

/-- What makes up for the access mode not being looked at: a file is only cut to the length
it has, nothing on the volume is reshaped, and no shared mapping may be written. -/
def Harmless (s : Sys) : Call → Prop
  | .truncate c fd length => ∀ f, s.vfs.getFd c.pid fd = .ok f →
      length.toNat = (s.vfs.nodes f.vnodeId).size
  | .fallocate c fd _ len | .punchHole c fd _ len => len.toNat = 0 ∨ s.ext.isNone = true ∨
      ∀ f, s.vfs.getFd c.pid fd = .ok f → s.ext2Ino f.vnodeId = 0
  | .mmapFile _ _ _ prot flags _ _ => protHas flags mapShared = true → protHas prot protWrite = false
  | _ => True

instance instDecidableReadOnly : (o : Call) → Decidable (ReadOnly s o)
  | .read .. | .write .. | .seek .. | .fstat .. | .dup .. | .dup2 .. | .close .. | .truncate ..
  | .fallocate .. | .punchHole .. | .fsync .. | .mmapFile .. =>
    inferInstanceAs (Decidable (∀ _, _ = Except.ok _ → _ = false))
  | .touch .. | .store .. | .msync .. | .munmap .. | .mprotect .. => .isTrue trivial

instance instDecidableHarmless : (o : Call) → Decidable (Harmless s o)
  | .truncate .. => inferInstanceAs (Decidable (∀ _, _ = Except.ok _ → _ = _))
  | .fallocate .. | .punchHole .. =>
    inferInstanceAs (Decidable (_ = 0 ∨ _ = true ∨ ∀ _, _ = Except.ok _ → _ = 0))
  | .mmapFile .. => inferInstanceAs (Decidable (_ = true → _ = false))
  | .read .. | .write .. | .seek .. | .fstat .. | .dup .. | .dup2 .. | .close .. | .fsync .. | .touch ..
  | .store .. | .msync .. | .munmap .. | .mprotect .. => .isTrue trivial

theorem step_safe {o : Call} (h : Guarded s) (hr : ReadOnly s o) (hh : Harmless s o) :
    Safe s (step s o) := by
  cases o with
  | read c fd n => exact (safely_read h).final
  | write c fd data => exact (safely_write h hr).final
  | seek c fd whence => exact (safely_onVfs h (gentle_seek h.owned)).final
  | fstat c fd => exact (safely_fstat h).final
  | dup c fd => exact (safely_onVfs h (gentle_dup h.owned)).final
  | dup2 c fd newFd => exact (safely_onVfs h (gentle_dup2 h.owned)).final
  | close c fd => exact (safely_onVfs h (gentle_close h.owned)).final
  | truncate c fd length => exact (safely_truncate h hh).final
  | fallocate c fd offset len | punchHole c fd offset len => exact (safely_reshape h hh).final
  | fsync c fd => exact (safely_fsync h).final
  | mmapFile c addr length prot flags fd offset => exact (safely_mmapFile h hh).final
  | touch pid addr => exact (safely_touch h).final
  | store pid addr byte =>
    have hs : Safe s (Syscall.store s pid addr byte) := safe_store h
    exact hs
  | msync pid addr length =>
    have hs : Safe s (Syscall.msync s pid addr length) := safe_msync h
    exact hs
  | munmap pid addr length =>
    have hs : Safe s (Syscall.munmap s pid addr length) := safe_munmap h
    exact hs
  | mprotect pid addr length prot =>
    have hs : Safe s (Syscall.mprotect s pid addr length prot) := safe_mprotect h
    exact hs

theorem run_safe (h : Guarded s)
    (ho : Along step (fun s o => ReadOnly s o ∧ Harmless s o) s os) : Safe s (run s os) := by
  induction os generalizing s with
  | nil => exact .refl h
  | cons o os ih =>
    have hs := step_safe h ho.1.1 ho.1.2
    exact hs.trans (ih hs.1 ho.2)

/-- Along a run of harmless calls through descriptors without write access, size and
contents of every file that stays in use are what they were. -/
theorem read_only_keeps_contents (s : Sys) (hs : Guarded s) (os : List Call)
    (hr : Along step ReadOnly s os) (hh : Along step Harmless s os) (id : Nat)
    (ha : ((run s os).vfs.nodes id).active = true) : (run s os).contents id = s.contents id :=
  (run_safe hs (hr.and hh)).2.contents ha

/-- A file of three bytes is written through descriptor 3 and opened for reading as 4. -/
def makeFile : List Vfs.Call :=
  [.open kernel 0 ['f'] ⟨OpenFlags.create ||| OpenFlags.write⟩ 0o644,.write kernel 3 [1,2,3],
    .open kernel 0 ['f'] ⟨OpenFlags.read⟩ 0]

def reader : Sys := ⟨Vfs.run MikuVfs.bare makeFile,fun _ => 0,none,fun _ => VmaMap.new,fun _ _ => none⟩

theorem mapsOk_new : MapsOk VmaMap.new fun _ => none := by
  refine ⟨Spans.empty,fun _ _ h => (nomatch h),fun _ _ _ _ h => (nomatch h),?_⟩
  rintro p prot b ⟨k,v,hv,-⟩
  exact absurd hv (OrdMap.not_mem_empty _)

theorem guarded_unmapped (h : Owned v) :
    Guarded ⟨v,fun _ => 0,none,fun _ => VmaMap.new,fun _ _ => none⟩ := ⟨h,fun _ => mapsOk_new⟩

theorem guarded_reader : Guarded reader := by
  have hf : Filed (makeFile.foldl Vfs.step MikuVfs.bare) := by
    refine Along.invariant (P := fun s o => o.onFile = true ∧ Roomy s o)
      (fun s o h hp => (step_refines h hp.1 hp.2).1) ?_ filed_bare
    decide +kernel
  exact guarded_unmapped hf.owned

def useReader : List Call :=
  [.read kernel 4 2,.write kernel 4 [9],.mmapFile kernel 0 4096 protRead mapShared 4 0,
    .touch 0 0x100000000,.store 0 0x100000000 9,.msync 0 0x100000000 4096,.munmap 0 0x100000000 4096,
    .truncate kernel 4 3,.punchHole kernel 4 0 1,.close kernel 4]

theorem read_only_keeps_contents_use :
    ((run reader useReader).vfs.nodes 1).active = true ∧ (reader.contents 1).1 = 3 ∧
    (run reader useReader).contents 1 = reader.contents 1 := by
  have ha : ((run reader useReader).vfs.nodes 1).active = true := by decide +kernel
  exact ⟨ha,by decide +kernel,
    read_only_keeps_contents reader guarded_reader useReader (by decide +kernel) (by decide +kernel) 1 ha⟩

/-- Descriptor 4 is for reading, and truncates the file. -/
theorem reader_truncates : Guarded reader ∧ Along step ReadOnly reader [.truncate kernel 4 0] ∧
    (reader.vfs.fdTables 0 4).any (fun f => f.vnodeId == 1 && !f.flags.writable) ∧
    ((run reader [.truncate kernel 4 0]).vfs.nodes 1).active = true ∧
    (reader.contents 1).1 = 3 ∧ ((run reader [.truncate kernel 4 0]).contents 1).1 = 0 := by
  refine ⟨guarded_reader,?_⟩
  decide +kernel

end Miku.Syscall
