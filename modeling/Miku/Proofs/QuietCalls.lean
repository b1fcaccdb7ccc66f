import Miku.Lib.Holders
import Miku.Vfs.FileOps

namespace Miku.Vfs
open Lib

namespace MikuVfs

/-- The node that a descriptor of a process refers to. -/
def refs (s : MikuVfs) (p : Nat × Nat) : Option Nat := (s.fdTables p.1 p.2).map OpenFile.vnodeId

/-- The open descriptors on a node, over all processes. -/
def descriptors (s : MikuVfs) (id : Nat) : Set (Nat × Nat) := holders s.refs id

end MikuVfs

open MikuVfs

variable {s t : MikuVfs} {id : Nat}

/-- Descriptors refer to nodes in use, and every node counts those on it. -/
structure Stable (s : MikuVfs) : Prop where
  bound : ∀ pid fd, maxOpenFiles ≤ fd → s.refs (pid,fd) = none
  live : ∀ p id, s.refs p = some id → s.validVnode id = true
  counted : ∀ id, (s.descriptors id).encard = (s.nodes id).refcount
  hint : s.vnodeFreeHint ≤ maxVnodes

/-- What a call does that opens and closes nothing: nodes with descriptors stay in use and
stay the file they are. -/
structure Quiet (s t : MikuVfs) : Prop where
  refs : ∀ p, t.refs p = s.refs p
  count : ∀ id, (t.nodes id).refcount = (s.nodes id).refcount ∨
    (s.nodes id).active = false ∧ (t.nodes id).refcount = 0
  active : ∀ id, (s.nodes id).active = true → 0 < (s.nodes id).refcount → (t.nodes id).active = true
  same : ∀ id, (s.nodes id).active = true → 0 < (s.nodes id).refcount →
    t.generation id = s.generation id
  hint : s.vnodeFreeHint ≤ maxVnodes → t.vnodeFreeHint ≤ maxVnodes

theorem Quiet.refl : Quiet s s :=
  ⟨fun _ => rfl,fun _ => .inl rfl,fun _ h _ => h,fun _ _ _ => rfl,fun h => h⟩

theorem Quiet.count_active (h : Quiet s t) (ha : (s.nodes id).active = true) :
    (t.nodes id).refcount = (s.nodes id).refcount := by
  rcases h.count id with he | ⟨hi,-⟩
  · exact he
  · rw [ha] at hi
    cases hi

theorem Quiet.trans (h : Quiet s t) (h' : Quiet t u) : Quiet s u := by
  refine ⟨fun p => (h'.refs p).trans (h.refs p),?_,?_,?_,fun hb => h'.hint (h.hint hb)⟩
  · intro id
    cases ha : (s.nodes id).active with
    | false =>
      rcases h.count id with he | ⟨-,hz⟩
      · rcases h'.count id with he' | ⟨-,hz'⟩
        · exact .inl (he'.trans he)
        · exact .inr ⟨rfl,hz'⟩
      · rcases h'.count id with he' | ⟨-,hz'⟩
        · exact .inr ⟨rfl,he'.trans hz⟩
        · exact .inr ⟨rfl,hz'⟩
    | true =>
      have he := h.count_active ha
      rcases h'.count id with he' | ⟨hi,hz⟩
      · exact .inl (he'.trans he)
      · -- a node that went out of use in between had no descriptors
        refine .inl ?_
        by_cases hp : 0 < (s.nodes id).refcount
        · rw [h.active id ha hp] at hi
          cases hi
        · omega
  · intro id ha hp
    exact h'.active id (h.active id ha hp) (by rw [h.count_active ha]; exact hp)
  · intro id ha hp
    rw [h'.same id (h.active id ha hp) (by rw [h.count_active ha]; exact hp),h.same id ha hp]

theorem Stable.pos (h : Stable s) (hp : s.refs p = some id) : 0 < (s.nodes id).refcount := by
  have hm : p ∈ s.descriptors id := hp
  have := Set.encard_pos.mpr ⟨p,hm⟩
  rw [h.counted] at this
  exact_mod_cast this

theorem Stable.quiet (h : Stable s) (hq : Quiet s t) : Stable t := by
  have hr : t.refs = s.refs := funext hq.refs
  refine ⟨?_,?_,?_,hq.hint h.hint⟩
  · intro pid fd hfd
    rw [hr]
    exact h.bound pid fd hfd
  · intro p id hp
    rw [hr] at hp
    have hv := h.live p id hp
    simp only [validVnode,Bool.and_eq_true] at hv ⊢
    exact ⟨hv.1,hq.active id hv.2 (h.pos hp)⟩
  · intro id
    rw [descriptors,hr]
    have hc := h.counted id
    rcases hq.count id with he | ⟨ha,hz⟩
    · rw [he]
      exact hc
    · -- a node not in use has no descriptors
      have hn : holders s.refs id = ∅ := by
        refine Set.eq_empty_of_forall_notMem fun p hp => ?_
        have hv := h.live p id hp
        simp [validVnode,ha] at hv
      rw [hn,hz,Set.encard_empty]
      rfl

theorem quiet_mapNode {f : VNode → VNode} (hr : (f (s.nodes id)).refcount = (s.nodes id).refcount)
    (ha : (s.nodes id).active = true → 0 < (s.nodes id).refcount → (f (s.nodes id)).active = true) :
    Quiet s (s.mapNode id f) := by
  refine ⟨fun _ => rfl,fun j => .inl ?_,fun j hj hp => ?_,fun _ _ _ => rfl,fun h => h⟩
  · by_cases h : j = id
    · subst h
      simpa [mapNode,setNode] using hr
    · simp [mapNode,setNode,h]
  · by_cases h : j = id
    · subst h
      simpa [mapNode,setNode] using ha hj hp
    · simpa [mapNode,setNode,h] using hj

theorem quiet_initNode {n : VNode} (hi : (s.nodes id).active = false) (hz : n.refcount = 0) :
    Quiet s (s.initNode id n) := by
  refine ⟨fun _ => rfl,fun j => ?_,fun j hj _ => ?_,fun j hj _ => ?_,fun h => h⟩
  all_goals
    by_cases h : j = id
    · simp_all [initNode,setNode]
    · simp_all [initNode,setNode]

theorem quiet_dropVnode (hz : (s.nodes id).refcount = 0) : Quiet s (s.dropVnode id) := by
  have h : Quiet s (s.mapNode id fun n => { n with active := false }) :=
    quiet_mapNode rfl fun _ hp => by omega
  refine ⟨h.refs,h.count,h.active,h.same,fun hb => ?_⟩
  exact Nat.le_trans (Nat.min_le_right _ _) hb

theorem quiet_pageCache : Quiet s { s with pageCache := p } :=
  ⟨fun _ => rfl,fun _ => .inl rfl,fun _ h _ => h,fun _ _ _ => rfl,fun h => h⟩

theorem quiet_hint (h : s.vnodeFreeHint ≤ maxVnodes → n ≤ maxVnodes) :
    Quiet s { s with vnodeFreeHint := n } :=
  ⟨fun _ => rfl,fun _ => .inl rfl,fun _ h _ => h,fun _ _ _ => rfl,h⟩

section

variable {α β : Type} {f : α → VfsM β}

/-- However the call ends, it was quiet. -/
def Calm (x : VfsM α) (s : MikuVfs) : Prop := Wp x s (fun _ t => Quiet s t) (fun _ t => Quiet s t)

theorem Calm.final (h : Calm x s) : Quiet s (Lib.final x s) := Wp.final h

theorem Calm.step {g : α → β} (h : Calm x s) : Quiet s (Lib.final (x >>= fun a => Pure.pure (g a)) s) := by
  rw [final_bind_pure]
  exact h.final

theorem Calm.bind (hx : Calm x s) (hf : ∀ a t, x s = .ok a t → Calm (f a) t) : Calm (x >>= f) s :=
  Wp.seq Quiet.trans hx hf

theorem Calm.pure : Calm (Pure.pure a : VfsM α) s := Quiet.refl

theorem Calm.reads (h : ∀ a, g s = .ok a → Calm (f a) s) :
    Calm (Lib.reads g >>= f) s :=
  Wp.look Quiet.refl h

theorem Calm.check {f : PUnit → VfsM β} (h : Calm (f ⟨⟩) s) : Calm (Lib.check b e >>= f) s :=
  Wp.bind (.check (fun _ => h) fun _ => Quiet.refl)

theorem Calm.update (h : Quiet s (g s)) :
    Calm (modify g : VfsM PUnit) s := h

end

/-- What checks like these let through. -/
theorem of_if_ok (h : (if b then .ok () else .error e) = Except.ok u) : b = true := by
  cases b with
  | true => rfl
  | false => cases h

theorem of_if_error (h : (if b then .error e else .ok ()) = Except.ok u) :
    b = false := by
  cases b with
  | true => cases h
  | false => rfl

theorem freeVnode_inactive (h : s.freeVnode = some id) : (s.nodes id).active = false := by
  rcases Option.or_eq_some_iff.mp h with hf | ⟨-,hf⟩
  all_goals simpa using List.find?_some hf

theorem freeVnode_lt (hb : s.vnodeFreeHint ≤ maxVnodes) (h : s.freeVnode = some id) :
    id < maxVnodes := by
  rcases Option.or_eq_some_iff.mp h with hf | ⟨-,hf⟩
  all_goals
    have := List.mem_range'_1.mp (List.mem_of_find?_eq_some hf)
    omega

theorem allocVnode_ok (h : allocVnode s = .ok id t) :
    s.freeVnode = some id ∧ t = { s with vnodeFreeHint := id + 1 } := by
  unfold allocVnode at h
  split at h
  · rename_i i hi
    cases h
    exact ⟨hi,rfl⟩
  · cases h

theorem calm_allocVnode : Calm allocVnode s := by
  unfold Calm Wp
  cases h : allocVnode s with
  | ok id t =>
    obtain ⟨hf,rfl⟩ := allocVnode_ok h
    exact quiet_hint fun hb => freeVnode_lt hb hf
  | error e t =>
    unfold allocVnode at h
    split at h
    · cases h
    · cases h
      exact .refl

/-- A new node, once it is returned. -/
def Fresh (s : MikuVfs) (id : Nat) : Prop := (s.nodes id).active = true ∧ (s.nodes id).refcount = 0

variable {parent : Nat} {name : Str}

theorem wp_insertEntry (hf : Fresh s id) :
    Wp (makeNode.insertEntry parent name id) s (fun _ t => Quiet s t ∧ Fresh t id)
      (fun _ t => Quiet s t) := by
  have hq : ∀ ch, Quiet s (s.mapNode parent fun n => { n with children := ch }) :=
    fun ch => quiet_mapNode rfl fun h _ => h
  have hk : ∀ ch, Fresh (s.mapNode parent fun n => { n with children := ch }) id := by
    intro ch
    by_cases h : id = parent
    · subst h
      simpa [Fresh,mapNode,setNode] using hf
    · simpa [Fresh,mapNode,setNode,h] using hf
  refine .ite rfl ⟨hq _,hk _⟩ ((hq _).trans (quiet_mapNode rfl fun _ hp => ?_))
  rw [(hk _).2] at hp
  omega

theorem wp_makeNode : Wp (makeNode c kind mode target parent name) s
      (fun id t => Quiet s t ∧ Fresh t id ∧ (s.vnodeFreeHint ≤ maxVnodes → id < maxVnodes))
      (fun _ t => Quiet s t) := by
  iterate 4 refine .look Quiet.refl fun _ _ => ?_
  refine .bind ?_
  cases h : allocVnode s with
  | error e t => exact .of_error h (calm_allocVnode.error h)
  | ok id t =>
    have hq : Quiet s t := calm_allocVnode.ok h
    obtain ⟨hf,ht⟩ := allocVnode_ok h
    refine .of_ok h (.bind (.modify (.bind ?_)))
    have hi : (t.nodes id).active = false := by
      have ha := freeVnode_inactive hf
      rwa [ht]
    have hn := hq.trans (quiet_initNode (n := { VNode.init parent name kind (t.nodes parent).fsType mode
      c.cred with symlinkTarget := target, size := byteLen target }) hi rfl)
    refine (wp_insertEntry ?_).imp ?_ fun _ _ h => hn.trans h
    · exact ⟨by simp [initNode,setNode,VNode.init],by simp [initNode,setNode,VNode.init,VNode.empty]⟩
    · rintro _ u ⟨hu,hk⟩
      exact ⟨hn.trans hu,hk,fun hb => freeVnode_lt hb hf⟩

section

theorem wp_createFile : Wp (createFile c parent name mode) s
      (fun id t => Quiet s t ∧ Fresh t id ∧ (s.vnodeFreeHint ≤ maxVnodes → id < maxVnodes))
      (fun _ t => Quiet s t) := by
  exact .look Quiet.refl fun _ _ => wp_makeNode

theorem calm_makeNode : Calm (makeNode c kind mode target parent name) s :=
  wp_makeNode.imp (fun _ _ h => h.1) fun _ _ h => h

theorem calm_createFile : Calm (createFile c parent name mode) s :=
  wp_createFile.imp (fun _ _ h => h.1) fun _ _ h => h

theorem calm_mkdir : Calm (mkdir c parent name mode) s := by
  refine .reads fun _ _ => calm_makeNode.bind fun id t _ => ?_
  exact .bind (.update (quiet_mapNode rfl fun h _ => h)) fun _ _ _ => .pure

theorem calm_symlink : Calm (symlink c parent name target) s := by
  exact .reads fun _ _ => .check calm_makeNode

theorem calm_link : Calm (link c cwd path parent name) s := by
  refine .reads fun _ _ => .reads fun id _ => .reads fun _ _ => .reads fun _ _ => .reads fun _ _ =>
    .reads fun _ _ => .reads fun _ _ => .reads fun _ _ => ?_
  have hq : ∀ ch, Quiet s (s.mapNode parent fun n => { n with children := ch }) :=
    fun ch => quiet_mapNode rfl fun h _ => h
  exact .ite rfl ((hq _).trans (quiet_mapNode rfl fun h _ => h)) (hq _)

theorem quiet_freeIfUnused :
    Quiet s (if (s.nodes id).nlinks = 0 ∧ (s.nodes id).refcount = 0 then (s.freeFilePages id).dropVnode id
      else s) := by
  split
  · rename_i h
    exact quiet_pageCache.trans (quiet_dropVnode h.2)
  · exact .refl

theorem calm_unlink : Calm (unlink c cwd path) s := by
  refine .reads fun id _ => .reads fun _ _ => .reads fun _ _ => .reads fun _ _ => .reads fun p _ =>
    .reads fun _ _ => ?_
  refine .bind (.update (quiet_mapNode rfl fun h _ => h)) fun _ t _ => ?_
  exact .bind (.update (quiet_mapNode rfl fun h _ => h)) fun _ t _ => .update quiet_freeIfUnused

theorem calm_rmdir (h : ∀ id, s.resolvePath cwd path = .ok id → (s.nodes id).refcount = 0) :
    Calm (rmdir c cwd path) s := by
  refine .reads fun id hid => .reads fun _ _ => .check (.reads fun _ _ => .reads fun _ _ =>
    .reads fun _ _ => .reads fun p _ => .reads fun _ _ => ?_)
  have hq : Quiet s (s.mapNode p fun n =>
      { n with children := n.children.remove (nameHash (s.nodes id).name) id, nlinks := n.nlinks - 1 }) :=
    quiet_mapNode rfl fun h _ => h
  refine .bind (.update hq) fun _ t ht => .update ?_
  cases ht
  have hz : ((s.mapNode p fun n => { n with
      children := n.children.remove (nameHash (s.nodes id).name) id
      nlinks := n.nlinks - 1 }).nodes id).refcount = 0 := by
    rcases hq.count id with he | ⟨-,hz⟩
    · rw [he,h id hid]
    · exact hz
  refine (quiet_mapNode rfl fun h _ => h).trans (quiet_dropVnode ?_)
  simpa [mapNode,setNode] using hz

theorem calm_moveEntry : Calm (moveEntry id old new name) s := by
  refine .ite rfl ?_ ?_
  · exact ((quiet_mapNode rfl fun h _ => h).trans (quiet_mapNode rfl fun h _ => h)).trans
      (quiet_mapNode rfl fun h _ => h)
  · exact ((((quiet_mapNode rfl fun h _ => h).trans (quiet_mapNode rfl fun h _ => h)).trans
      (quiet_mapNode rfl fun h _ => h)).trans (quiet_mapNode rfl fun h _ => h)).trans
      (quiet_mapNode rfl fun h _ => h)

theorem calm_rename : Calm (rename c cwd path target) s := by
  refine .reads fun id _ => .reads fun _ _ => .reads fun _ _ => .reads fun old _ => .reads fun r _ =>
    .reads fun _ _ => .reads fun _ _ => .reads fun _ _ => .reads fun _ _ => .reads fun _ _ =>
    .reads fun _ _ => .reads fun _ _ => calm_moveEntry.bind fun _ t _ => .update ?_
  split
  · exact (quiet_mapNode rfl fun h _ => h).trans (quiet_mapNode rfl fun h _ => h)
  · exact .refl

end

theorem quiet_setOffset : Quiet s (setOffset s pid fd n) := by
  refine ⟨fun p => ?_,fun _ => .inl rfl,fun _ h _ => h,fun _ _ _ => rfl,fun h => h⟩
  unfold setOffset setFd MikuVfs.refs
  dsimp only
  by_cases hp : p.1 = pid
  · subst hp
    by_cases hf : p.2 = fd
    · subst hf
      cases s.fdTables p.1 p.2 <;> simp
    · simp [hf]
  · simp [hp]

theorem calm_readNode : Calm (readNode id offset n) s := by
  unfold Calm Wp readNode
  cases (s.nodes id).staticData with
  | some sd => exact .refl
  | none =>
    split_ifs
    · exact .refl
    · exact quiet_pageCache

theorem calm_readAny : Calm (readAny c id offset n) s := by
  have hr : Calm (readNode id offset n) s := calm_readNode
  unfold Calm Wp readAny at *
  cases (s.nodes id).answer c with
  | some r => cases r <;> exact .refl
  | none =>
    by_cases hd : (s.nodes id).isDir = true
    · simpa [hd] using Quiet.refl
    · simpa [hd] using hr

theorem calm_read : Calm (read c fd n) s := by
  refine .reads fun f _ => .check (.reads fun _ _ => ?_)
  split
  · exact .pure
  · exact calm_readAny.bind fun _ _ _ => .bind (.update quiet_setOffset) fun _ _ _ => .pure

theorem calm_readAtVnode : Calm (readAtVnode id offset n) s := by
  have hr : Calm (readNode id offset n) s := calm_readNode
  unfold Calm Wp readAtVnode at *
  by_cases hv : (!s.validVnode id || decide (n = 0)) = true
  · simpa [hv] using Quiet.refl
  · by_cases hd : (s.nodes id).isDir = true
    · simpa [hv,hd] using Quiet.refl
    · simpa [hv,hd] using hr

theorem calm_ensurePage : Calm (ensurePage id n) s := by
  unfold Calm Wp ensurePage
  cases (s.nodes id).addrSpace.getPage n with
  | some pid => exact .refl
  | none =>
    cases s.pageCache.allocPage with
    | none => exact .refl
    | some r =>
      dsimp only
      split_ifs
      · exact quiet_pageCache.trans (quiet_mapNode rfl fun h _ => h)
      · exact quiet_pageCache

theorem calm_updatePage : Calm (updatePage pid off bytes) s := by
  unfold Calm Wp updatePage
  cases s.pageCache.update pid fun d => put d off bytes with
  | some c => exact quiet_pageCache
  | none => exact .refl

theorem calm_writeLoop : Calm (writeLoop id fuel off data) s := by
  induction fuel generalizing off data s with
  | zero => exact .pure
  | succ fuel ih =>
    unfold writeLoop
    split
    · exact .pure
    · exact calm_ensurePage.bind fun _ _ _ => calm_updatePage.bind fun _ _ _ => ih

theorem calm_writeNode : Calm (writeNode id offset data) s := by
  exact .check (calm_writeLoop.bind fun _ _ _ =>
    .bind (.update (quiet_mapNode rfl fun h _ => h)) fun _ _ _ => .pure)

theorem calm_writeFile : Calm (writeFile id offset data) s := by
  exact .reads fun _ _ => .reads fun _ _ => calm_writeNode

theorem calm_writeAny : Calm (writeAny c f data) s := by
  have hw : Calm (writeFile f.vnodeId (writeOffset (s.nodes f.vnodeId) f) data) s := calm_writeFile
  unfold Calm Wp writeAny at *
  by_cases h1 : (s.nodes f.vnodeId).fsType = .procFS
  · simp only [h1,↓reduceIte]
    exact .refl
  · by_cases h2 : (s.nodes f.vnodeId).isDevice = true
    · simp only [h1,h2,↓reduceIte]
      cases c.device <;> exact .refl
    · simp only [h1,h2,↓reduceIte,Bool.false_eq_true]
      cases h : writeFile f.vnodeId (writeOffset (s.nodes f.vnodeId) f) data s <;> rw [h] at hw <;>
        exact hw

theorem calm_write : Calm (write c fd data) s := by
  refine .reads fun f _ => .check (.reads fun _ _ => ?_)
  split
  · exact .pure
  · exact calm_writeAny.bind fun _ _ _ => .bind (.update quiet_setOffset) fun _ _ _ => .pure

theorem calm_writeAtVnode : Calm (writeAtVnode id offset data) s := by
  refine .reads fun b _ => ?_
  split
  · exact .pure
  · exact .reads fun _ _ => .reads fun _ _ => .reads fun _ _ => calm_writeNode

theorem calm_seek : Calm (seek c fd whence) s := by
  exact .reads fun f _ => .reads fun _ _ => .reads fun _ _ => .check
    (.bind (.update quiet_setOffset) fun _ _ _ => .pure)

theorem quiet_truncateTo : Quiet s (truncateTo s id n) := by
  unfold truncateTo
  dsimp only
  split
  · exact quiet_mapNode rfl fun h _ => h
  · exact quiet_pageCache.trans (quiet_mapNode rfl fun h _ => h)

theorem calm_sysTruncate : Calm (sysTruncate c fd n) s := by
  exact .reads fun f _ => .reads fun _ _ => .update quiet_truncateTo

end Miku.Vfs
