import Miku.Proofs.NameCalls

namespace Miku.Vfs
open Lib MikuVfs Function

variable {C : Nat → Prop} {s t : MikuVfs} {c : Ctx} {id d x k cwd : Nat} {name path : Str} {ch : Children}

/-- The entry that a path names is one of the node, in the directory it is kept under. -/
def KeptAt (s : MikuVfs) (cwd : Nat) (path name : Str) (id : Nat) : Prop :=
  s.namedEntry cwd path = some ((s.nodes id).parent,name) ∧
    s.entries ((s.nodes id).parent,name) = some id

instance : Decidable (KeptAt s cwd path name id) := inferInstanceAs (Decidable (_ ∧ _))

def setTable (s : MikuVfs) (d : Nat) (ch : Children) : MikuVfs :=
  s.mapNode d fun n => { n with children := ch }

def setLinks (s : MikuVfs) (d k : Nat) : MikuVfs := s.mapNode d fun n => { n with nlinks := k }

theorem alike_setTable : Alike (s.nodes x) ((setTable s d ch).nodes x) := by
  by_cases hx : x = d <;> constructor <;> simp [setTable,mapNode,setNode,hx]

theorem alike_setLinks : Alike (s.nodes x) ((setLinks s d k).nodes x) := by
  by_cases hx : x = d <;> constructor <;> simp [setLinks,mapNode,setNode,hx]

theorem children_setTable :
    ((setTable s d ch).nodes x).children = if x = d then ch else (s.nodes x).children := by
  by_cases hx : x = d <;> simp [setTable,mapNode,setNode,hx]

@[simp] theorem nlinks_setTable : ((setTable s d ch).nodes x).nlinks = (s.nodes x).nlinks := by
  by_cases hx : x = d <;> simp [setTable,mapNode,setNode,hx]

@[simp] theorem children_setLinks : ((setLinks s d k).nodes x).children = (s.nodes x).children := by
  by_cases hx : x = d <;> simp [setLinks,mapNode,setNode,hx]

theorem nlinks_setLinks :
    ((setLinks s d k).nodes x).nlinks = if x = d then k else (s.nodes x).nlinks := by
  by_cases hx : x = d <;> simp [setLinks,mapNode,setNode,hx]

theorem Alike.trans (h : Alike l m) (h' : Alike m n) : Alike l n :=
  ⟨h'.active.trans h.active,h'.kind.trans h.kind,h'.target.trans h.target,
    h'.parent.trans h.parent,h'.name.trans h.name⟩

/-- The nodes of `t` are those of `s`, but for their links and the table of `d`. -/
structure Retabled (s t : MikuVfs) (d : Nat) (ch : Children) : Prop where
  alike : ∀ x, Alike (s.nodes x) (t.nodes x)
  children : ∀ x, (t.nodes x).children = if x = d then ch else (s.nodes x).children
  hint : t.vnodeFreeHint = s.vnodeFreeHint

theorem retabled_setTable : Retabled s (setTable s d ch) d ch :=
  ⟨fun _ => alike_setTable,fun _ => children_setTable,rfl⟩

theorem Retabled.setLinks (h : Retabled s t d ch) : Retabled s (setLinks t id k) d ch :=
  ⟨fun x => (h.alike x).trans alike_setLinks,fun x => children_setLinks.trans (h.children x),h.hint⟩

/-- Such a change keeps the tree in order if the table and the links agree with some names. -/
theorem Retabled.leaves {N : Names Nat Str}
    (hr : Retabled s t d ch) (h : s.Counting C) (ha : (s.nodes d).active) (hd : (s.nodes d).isDir)
    (hch : ch.Ok ∧ ch.findByName = update (s.nodes d).children.findByName name v)
    (hN : N.Tree C 0) (hent : N.entries = update s.entries (d,name) v)
    (hlive : N.live = s.names.live) (hdir : N.dir = s.names.dir)
    (hhome : ∀ x, (s.nodes x).isDir → N.home x = s.names.home x)
    (hn : ∀ x, C x → (s.nodes x).active → (t.nodes x).nlinks = N.nlinks x)
    (hg : ∀ x, s.entries (d,name) = some x → gone = some (d,name)) :
    Leaves C s t (update s.entries (d,name) v) gone none := by
  rw [← hent]
  refine .of_names h hN ?_ hlive hdir (fun x => (hr.alike x).active)
    (fun x => (hr.alike x).kind) (fun x => (hr.alike x).target) hn ?_ ?_ (hr.hint ▸ h.hint) ?_
    fun x _ => (hr.alike x).parent
  · rw [hent]
    refine entries_update (fun x => (hr.alike x).active) (fun x => (hr.alike x).isDir) ha hd ?_ fun x hx => ?_
    · rw [hr.children,if_pos rfl]
      exact hch.2
    · rw [hr.children,if_neg hx]
  · intro x hx
    rw [hhome x hx,(hr.alike x).parent,(hr.alike x).name]
    rfl
  · intro x hx hxd
    rw [hr.children]
    split
    · exact hch.1
    · exact h.tables x hx hxd
  · intro e x he hgone
    have hne : e ≠ (d,name) := by
      rintro rfl
      exact hgone (hg x he)
    rw [hent,update_of_ne hne]
    exact he

theorem link_entered (h : s.Counting C) (hp : (s.nodes parent).active)
    (hl : byteLen name ≤ childNameLen) (hid : ∀ id, s.resolvePathFollow cwd path = .ok id →
      (s.nodes id).active ∧ (s.nodes id).nlinks < 65535) : Wp (link c cwd path parent name) s
      (fun _ t => ∃ id, s.resolvePathFollow cwd path = .ok id ∧
        Leaves C s t (update s.entries (parent,name) (some id)) none none) (fun _ t => t = s) := by
  refine .look rfl fun _ hv => ?_
  refine .look rfl fun id hr => ?_
  refine .look rfl fun _ hdir => ?_
  refine .look rfl fun _ _ => ?_
  refine .look rfl fun _ hpd => ?_
  refine .look rfl fun _ _ => ?_
  refine .look rfl fun _ _ => ?_
  refine .look rfl fun _ hdup => ?_
  have hpd := of_if_ok hpd
  have hd : (s.nodes id).isDir = false := of_if_error hdir
  have hf := find_of_noDuplicate h.toOrderly hp hpd (of_if_ok hdup)
  have hfree : s.entries (parent,name) = none := (entries_eq hp hpd).trans hf
  obtain ⟨ha,hc⟩ := hid id hr
  obtain ⟨ch,hins,hok,hfind⟩ :=
    @Children.Ok.insert_spec _ _ id (h.tables parent hp hpd) (byteLen_of_valid hv) hl hf
  have hnl : ((setTable s parent ch).nodes id).nlinks = (s.nodes id).nlinks := nlinks_setTable
  have hr' : Retabled s (setLinks (setTable s parent ch) id ((s.nodes id).nlinks + 1)) parent ch :=
    retabled_setTable.setLinks
  refine .of_ok (a := ()) (t := setLinks (setTable s parent ch) id ((s.nodes id).nlinks + 1)) ?_
    ⟨id,hr,?_⟩
  · have hmod : (((setTable s parent ch).nodes id).nlinks + 1) % 65536 = (s.nodes id).nlinks + 1 := by
      rw [hnl]
      exact Nat.mod_eq_of_lt (by omega)
    rw [← hmod]
    simp only [hins,if_true]
    rfl
  · refine hr'.leaves (N := s.names.enter (parent,name) id) h hp hpd ⟨hok,hfind⟩ ?_ rfl rfl rfl ?_ ?_ ?_
    · exact h.tree.enter hfree ha hp hpd fun hdid => absurd (hd.symm.trans hdid) (by decide)
    · intro x hx
      refine update_of_ne ?_ _ _
      rintro rfl
      rw [hd] at hx
      cases hx
    · intro x _ _
      have hdn : s.names.dir id = false := hd
      rw [nlinks_setLinks,nlinks_setTable]
      simp only [Names.enter,hdn,Bool.false_eq_true,false_and,if_false,Nat.add_zero,eq_comm]
      split
      · rename_i hx
        rw [hx]
        rfl
      · rfl
    · intro x hx
      rw [hfree] at hx
      cases hx

theorem Retabled.leave (hr : Retabled s t d ch) (h : s.Counting C)
    (he : s.entries (d,name) = some id)
    (hch : ch.Ok ∧ ch.findByName = update (s.nodes d).children.findByName name none)
    (hn : ∀ x, C x → (s.nodes x).active →
      (t.nodes x).nlinks = (s.names.leave (d,name) id).nlinks x) :
    Leaves C s t (update s.entries (d,name) none) (some (d,name)) none := by
  obtain ⟨ha,hd⟩ := of_entries he
  exact hr.leaves h ha hd hch (h.tree.leave he) rfl rfl rfl (fun _ _ => rfl) hn fun _ _ => rfl

theorem Leaves.freeIfUnused (h : Leaves C s t E gone none) (hC : C id) (ha : (t.nodes id).active)
    (hd : (t.nodes id).isDir = false) :
    Leaves C s (if (t.nodes id).nlinks = 0 ∧ (t.nodes id).refcount = 0 then (t.freeFilePages id).dropVnode id
      else t) E gone none := by
  split
  · rename_i hz
    refine @Leaves.drop _ _ _ id _ _ _ _ h (fun e => ?_) (fun n => ?_) ?_ (fun x hx => ?_) ?_ ?_ ?_ ?_ ?_
    · rw [← h.entries]
      exact h.counting.tree.unnamed hC ha hz.1
    · rw [← h.entries,MikuVfs.entries,hd,Bool.and_false,if_neg (by decide)]
    · rintro rfl
      exact absurd (hd.symm.trans h.counting.root.2) (by decide)
    · exact update_of_ne hx _ _
    · simp [dropVnode,mapNode,setNode]
    iterate 3 · simp [dropVnode,mapNode,setNode,freeFilePages]
    · exact le_trans (Nat.min_le_right _ _) h.counting.hint
  · exact h

theorem unlink_removed (h : s.Counting C) (hC : ∀ id, id ≠ 0 → C id)
    (hk : ∀ id, s.resolvePathLstat cwd path = .ok id → KeptAt s cwd path (entryName path) id) :
    Wp (unlink c cwd path) s (fun _ t => ∃ e, s.namedEntry cwd path = some e ∧
        Leaves C s t (update s.entries e none) (some e) none) (fun _ t => t = s) := by
  refine .look rfl fun id hr => ?_
  refine .look rfl fun _ hdir => ?_
  refine .look rfl fun _ _ => ?_
  refine .look rfl fun _ _ => ?_
  refine .look rfl fun d hd => ?_
  cases hd
  refine .look rfl fun _ _ => ?_
  refine .bind (.modify (.bind (.modify (.modify ?_))))
  obtain ⟨hnamed,he⟩ := hk id hr
  refine ⟨_,hnamed,?_⟩
  have hd : (s.nodes id).isDir = false := of_if_error hdir
  obtain ⟨hpa,hpd⟩ := of_entries he
  let ch := (s.nodes (s.nodes id).parent).children.removeByName (entryName path)
  have hr : Retabled s (setLinks (setTable s (s.nodes id).parent ch) id
      (((setTable s (s.nodes id).parent ch).nodes id).nlinks - 1)) (s.nodes id).parent ch :=
    retabled_setTable.setLinks
  have ht := hr.leave h he ((h.tables _ hpa hpd).removeByName_spec _) fun x _ _ => by
    have hdn : s.names.dir id = false := hd
    rw [nlinks_setLinks,nlinks_setTable,nlinks_setTable]
    simp only [Names.leave,hdn,Bool.false_eq_true,false_and,if_false,Nat.add_zero,eq_comm]
    split
    · rename_i hx
      rw [hx]
      rfl
    · rfl
  have hid : id ≠ 0 := by
    rintro rfl
    exact absurd (hd.symm.trans h.root.2) (by decide)
  exact ht.freeIfUnused (hC id hid) ((hr.alike id).active.trans (h.active he)) ((hr.alike id).isDir.trans hd)

theorem rmdir_removed (h : s.Counting C)
    (hk : ∀ id, s.resolvePath cwd path = .ok id → KeptAt s cwd path (s.nodes id).name id) :
    Wp (rmdir c cwd path) s (fun _ t => ∃ e, s.namedEntry cwd path = some e ∧
        Leaves C s t (update s.entries e none) (some e) none) (fun _ t => t = s) := by
  refine .look rfl fun id hr => ?_
  refine .look rfl fun _ hdir => ?_
  refine .bind (.check (fun hroot => ?_) fun _ => rfl)
  refine .look rfl fun _ _ => ?_
  refine .look rfl fun _ _ => ?_
  refine .look rfl fun _ hempty => ?_
  refine .look rfl fun d hd => ?_
  cases hd
  refine .look rfl fun _ _ => ?_
  refine .bind (.modify (.modify ?_))
  obtain ⟨hnamed,he⟩ := hk id hr
  refine ⟨_,hnamed,?_⟩
  have hd : (s.nodes id).isDir := of_if_ok hdir
  have ha := h.active he
  obtain ⟨hpa,hpd⟩ := of_entries he
  have hnone : ∀ n, (s.nodes id).children.findByName n = none :=
    (h.tables id ha hd).isEmpty_iff.mp (of_if_ok hempty)
  have hne : id ≠ (s.nodes id).parent := by
    intro hid
    rw [← hid,entries_eq ha hd,hnone] at he
    cases he
  have honly : ∀ e, s.entries e = some id → e = ((s.nodes id).parent,(s.nodes id).name) := fun e hx =>
    (h.shape.home e id hx hd).symm
  let ch := (s.nodes (s.nodes id).parent).children.remove (nameHash (s.nodes id).name) id
  -- the links of the node itself no longer matter: here they are as after any other removal
  have hr : Retabled s (setLinks (setLinks (setTable s (s.nodes id).parent ch) (s.nodes id).parent
      ((s.nodes (s.nodes id).parent).nlinks - 1)) id ((s.nodes id).nlinks - 1)) (s.nodes id).parent ch :=
    retabled_setTable.setLinks.setLinks
  have hch := @Children.Ok.remove_spec _ (s.nodes id).name id (h.tables _ hpa hpd)
    ((entries_eq hpa hpd).symm.trans he) fun n hn =>
      congrArg Prod.snd (honly (_,n) ((entries_eq hpa hpd).trans hn))
  have ht := hr.leave h he hch fun x _ _ => by
    have hdn : s.names.dir id = true := hd
    rw [nlinks_setLinks,nlinks_setLinks,nlinks_setTable]
    simp only [Names.leave,hdn,true_and]
    by_cases hx : x = id
    · subst hx
      rw [if_pos rfl,if_pos rfl,if_neg (Ne.symm hne)]
      rfl
    · rw [if_neg hx,if_neg (Ne.symm hx)]
      by_cases hxp : x = (s.nodes id).parent
      · rw [if_pos hxp,if_pos hxp.symm,hxp]
        rfl
      · rw [if_neg hxp,if_neg (Ne.symm hxp)]
        rfl
  refine @Leaves.drop _ _ _ id _ _ _ _ ht (fun e hx => ?_) (fun n => ?_) (by simpa using hroot)
    (fun x hx => ?_) ?_ ?_ ?_ ?_ ?_
  · by_cases hxe : e = ((s.nodes id).parent,(s.nodes id).name)
    · rw [hxe,update_self] at hx
      cases hx
    · rw [update_of_ne hxe] at hx
      exact hxe (honly e hx)
  · rw [update_of_ne fun hx => hne (congrArg Prod.fst hx),entries_eq ha hd]
    exact hnone n
  · by_cases hxp : x = (s.nodes id).parent
    · simp [dropVnode,setLinks,setTable,mapNode,setNode,hx,ch]
    · simp [dropVnode,setLinks,setTable,mapNode,setNode,hx,hxp]
  · simp [dropVnode,mapNode,setNode]
  iterate 3 · simp [dropVnode,setLinks,setTable,mapNode,setNode,hne]
  · exact le_trans (Nat.min_le_right _ _) h.hint

variable {e e' : Nat × Str}

def setHome (s : MikuVfs) (id : Nat) (e : Nat × Str) : MikuVfs :=
  s.mapNode id fun n => { n with name := e.2, parent := e.1 }

@[simp] theorem nlinks_setHome : ((setHome s id e).nodes x).nlinks = (s.nodes x).nlinks := by
  by_cases hx : x = id <;> simp [setHome,mapNode,setNode,hx]

/-- The node `id` is kept under `e`, and the entries are `E`. -/
structure Rehomed (s t : MikuVfs) (id : Nat) (e : Nat × Str) (E : Nat × Str → Option Nat) : Prop where
  active : ∀ x, (t.nodes x).active = (s.nodes x).active
  kind : ∀ x, (t.nodes x).kind = (s.nodes x).kind
  target : ∀ x, (t.nodes x).symlinkTarget = (s.nodes x).symlinkTarget
  home : t.names.home = update s.names.home id e
  tables : ∀ d, (s.nodes d).active → (s.nodes d).isDir → (t.nodes d).children.Ok
  entries : t.entries = E
  hint : t.vnodeFreeHint = s.vnodeFreeHint

theorem Rehomed.refl (h : s.Orderly) : Rehomed s s id (s.names.home id) s.entries :=
  ⟨fun _ => rfl,fun _ => rfl,fun _ => rfl,(update_eq_self id _).symm,h.tables,rfl,rfl⟩

section

variable (h : Rehomed s t id e E)
include h

theorem Rehomed.isDir : (t.nodes x).isDir = (s.nodes x).isDir := by
  rw [VNode.isDir,VNode.isDir,h.kind]

theorem Rehomed.alike {u : MikuVfs}
    (hx : ∀ x, Alike (t.nodes x) (u.nodes x)) (hhint : u.vnodeFreeHint = t.vnodeFreeHint)
    (htables : ∀ x, (s.nodes x).active → (s.nodes x).isDir → (u.nodes x).children.Ok)
    (hentries : u.entries = E') : Rehomed s u id e E' := by
  refine ⟨fun x => (hx x).active.trans (h.active x),fun x => (hx x).kind.trans (h.kind x),
    fun x => (hx x).target.trans (h.target x),?_,htables,hentries,hhint.trans h.hint⟩
  rw [← h.home]
  exact funext fun x => Prod.ext (hx x).parent (hx x).name

theorem Rehomed.table (ha : (s.nodes d).active) (hd : (s.nodes d).isDir)
    (hch : ch.Ok ∧ ch.findByName = update (t.nodes d).children.findByName name v) :
    Rehomed s (setTable t d ch) id e (update E (d,name) v) := by
  have hx : ∀ x, Alike (t.nodes x) ((setTable t d ch).nodes x) := fun x => alike_setTable
  refine h.alike hx rfl ?_ ?_
  · intro x hxa hxd
    rw [children_setTable]
    split
    · exact hch.1
    · exact h.tables x hxa hxd
  · rw [← h.entries]
    refine entries_update (fun x => (hx x).active) (fun x => (hx x).isDir) ((h.active d).trans ha)
      (h.isDir.trans hd) ?_ fun x hxd => ?_
    · rw [children_setTable,if_pos rfl]
      exact hch.2
    · rw [children_setTable,if_neg hxd]

theorem Rehomed.setHome : Rehomed s (setHome t id e') id e' E := by
  have hx : ∀ x, ((Vfs.setHome t id e').nodes x).active = (t.nodes x).active ∧
      ((Vfs.setHome t id e').nodes x).kind = (t.nodes x).kind ∧
      ((Vfs.setHome t id e').nodes x).symlinkTarget = (t.nodes x).symlinkTarget ∧
      ((Vfs.setHome t id e').nodes x).children = (t.nodes x).children := by
    intro x
    by_cases hx : x = id <;> simp [Vfs.setHome,mapNode,setNode,hx]
  refine ⟨fun x => (hx x).1.trans (h.active x),fun x => (hx x).2.1.trans (h.kind x),
    fun x => (hx x).2.2.1.trans (h.target x),?_,?_,?_,h.hint⟩
  · funext x
    by_cases hxi : x = id
    · subst hxi
      rw [update_self]
      simp [names,Vfs.setHome,mapNode,setNode]
    · rw [update_of_ne hxi]
      have := congrFun h.home x
      rw [update_of_ne hxi] at this
      rw [← this]
      simp [names,Vfs.setHome,mapNode,setNode,hxi]
  · intro d ha hd
    rw [(hx d).2.2.2]
    exact h.tables d ha hd
  · rw [← h.entries]
    funext f
    have hdir : ((Vfs.setHome t id e').nodes f.1).isDir = (t.nodes f.1).isDir := by
      rw [VNode.isDir,VNode.isDir,(hx f.1).2.1]
    simp [MikuVfs.entries,(hx f.1).1,hdir,(hx f.1).2.2.2]

theorem Rehomed.setLinks : Rehomed s (setLinks t d k) id e E := by
  have hx : ∀ x, Alike (t.nodes x) ((Vfs.setLinks t d k).nodes x) := fun x => alike_setLinks
  refine h.alike hx rfl ?_ ?_
  · intro x ha hd
    rw [children_setLinks]
    exact h.tables x ha hd
  · rw [← h.entries]
    funext f
    simp [MikuVfs.entries,(hx f.1).active,(hx f.1).isDir]

end

theorem Rehomed.leaves (hm : Rehomed s t id e' (update (update s.entries e none) e' (some id)))
    (h : s.Counting C) (he : s.entries e = some id) (hfree : update s.entries e none e' = none)
    (ha : (s.nodes e'.1).active) (hd : (s.nodes e'.1).isDir)
    (hn : ∀ x, C x → (s.nodes x).active →
      (t.nodes x).nlinks = ((s.names.leave e id).enter e' id).nlinks x) :
    Leaves C s t (update (update s.entries e none) e' (some id)) (some e) (some id) := by
  refine .of_names (N := (s.names.leave e id).enter e' id) h ?_ hm.entries rfl rfl hm.active hm.kind
    hm.target hn ?_ ?_ (hm.hint ▸ h.hint) ?_ ?_
  · refine (h.tree.leave he).enter hfree (h.active he) ha hd fun hdid f hf => ?_
    -- a directory has no other entry
    by_cases hfe : f = e
    · rw [hfe,Names.leave] at hf
      dsimp only at hf
      rw [update_self] at hf
      cases hf
    · have hf : s.entries f = some id := (update_of_ne hfe _ _).symm.trans hf
      exact hfe ((h.shape.home f id hf hdid).symm.trans (h.shape.home e id he hdid))
  · exact fun x _ => congrFun hm.home x
  · exact hm.tables
  · intro f x hf hg
    have hfe : f ≠ e := fun h => hg (congrArg some h.symm)
    have hf' : update s.entries e none f = some x := (update_of_ne hfe _ _).trans hf
    refine (update_of_ne ?_ _ _).trans hf'
    rintro rfl
    rw [hfree] at hf'
    cases hf'
  · intro x hx
    have := congrFun hm.home x
    rw [update_of_ne fun h => hx (congrArg some h.symm)] at this
    exact congrArg Prod.fst this

theorem Rehomed.same (hm : Rehomed s t id (s.names.home id) s.entries) (h : s.Counting C)
    (hn : ∀ x, (t.nodes x).nlinks = (s.nodes x).nlinks) : Leaves C s t s.entries none none := by
  have hh : t.names.home = s.names.home := hm.home.trans (update_eq_self id _)
  exact .of_names (N := s.names) h h.tree hm.entries rfl rfl hm.active hm.kind hm.target
    (fun x _ _ => hn x) (fun x _ => congrFun hh x) hm.tables (hm.hint ▸ h.hint) (fun _ _ he _ => he)
    fun x _ => congrArg Prod.fst (congrFun hh x)

/-- A node without its entry, on its way to `e`. -/
def detached (s : MikuVfs) (id : Nat) (e : Nat × Str) : MikuVfs :=
  setHome (s.mapNode (s.nodes id).parent fun n =>
    { n with children := n.children.removeByName (s.nodes id).name }) id e

theorem moveEntry_done
    (hins : ((detached s id (d,name)).nodes d).children.insert name id = (true,ch)) :
    moveEntry id (s.nodes id).parent d name s = .ok () (setTable (detached s id (d,name)) d ch) := by
  simp only [detached,setHome,setTable] at hins ⊢
  simp [moveEntry,hins]

def restored (s t : MikuVfs) (id : Nat) : MikuVfs :=
  (setHome t id ((s.nodes id).parent,(s.nodes id).name)).mapNode (s.nodes id).parent fun n =>
    { n with children := (n.children.insert (s.nodes id).name id).2 }

theorem moveEntry_taken
    (hins : ((detached s id (d,name)).nodes d).children.insert name id = (false,ch)) :
    moveEntry id (s.nodes id).parent d name s =
      .error .noSpace (restored s (setTable (detached s id (d,name)) d ch) id) := by
  simp only [detached,setHome,setTable,restored] at hins ⊢
  simp [moveEntry,hins]

theorem nlinks_detached : ((detached s id e).nodes x).nlinks = (s.nodes x).nlinks := by
  rw [detached,nlinks_setHome]
  exact nlinks_setTable

theorem rehomed_detached (h : s.Orderly) (he : s.entries (s.names.home id) = some id) :
    Rehomed s (detached s id e) id e (update s.entries (s.names.home id) none) := by
  obtain ⟨hpa,hpd⟩ := of_entries he
  have hrm := (h.tables _ hpa hpd).removeByName_spec (s.nodes id).name
  exact ((@Rehomed.refl _ id h).table hpa hpd hrm).setHome

theorem rehomed_restored (hm : Rehomed s t id e (update s.entries (s.names.home id) none))
    (h : s.Orderly) (he : s.entries (s.names.home id) = some id) :
    Rehomed s (restored s t id) id (s.names.home id) s.entries := by
  have he : s.entries ((s.nodes id).parent,(s.nodes id).name) = some id := he
  obtain ⟨hpa,hpd⟩ := of_entries he
  have hok := h.tables _ hpa hpd
  obtain ⟨a,ham,han,-⟩ := hok.findByName_iff.mp ((entries_eq hpa hpd).symm.trans he)
  obtain ⟨-,h0,hl⟩ := hok.named a ham
  rw [han] at h0 hl
  have hu : Rehomed s (setHome t id ((s.nodes id).parent,(s.nodes id).name)) id
    ((s.nodes id).parent,(s.nodes id).name) _ := hm.setHome
  rw [restored]
  generalize setHome t id ((s.nodes id).parent,(s.nodes id).name) = u at hu
  have hnone : (u.nodes (s.nodes id).parent).children.findByName (s.nodes id).name = none := by
    rw [← entries_eq ((hu.active _).trans hpa) (hu.isDir.trans hpd),hu.entries]
    exact update_self _ _ _
  obtain ⟨ch,hins,hch⟩ := @Children.Ok.insert_spec _ _ id (hu.tables _ hpa hpd) h0 hl hnone
  have hback : update (update s.entries (s.names.home id) none)
      ((s.nodes id).parent,(s.nodes id).name) (some id) = s.entries := by
    rw [← he]
    exact (update_idem _ _ _).trans (update_eq_self _ _)
  have hv := hu.table hpa hpd hch
  rw [hback] at hv
  rw [mapNode,hins]
  exact hv

theorem nlinks_restored : ((restored s t id).nodes x).nlinks = (t.nodes x).nlinks := by
  rw [restored]
  exact nlinks_setTable.trans nlinks_setHome

theorem moveEntry_rehomed (h : s.Counting C) (he : s.entries (s.names.home id) = some id)
    (ha : (s.nodes d).active) (hd : (s.nodes d).isDir) (h0 : byteLen name ≠ 0)
    (hl : byteLen name ≤ childNameLen) : Wp (moveEntry id (s.nodes id).parent d name) s
      (fun _ t => update s.entries (s.names.home id) none (d,name) = none ∧ Rehomed s t id (d,name)
          (update (update s.entries (s.names.home id) none) (d,name) (some id)) ∧
        ∀ x, (t.nodes x).nlinks = (s.nodes x).nlinks)
      (fun _ t => Leaves C s t s.entries none none) := by
  have ht := @rehomed_detached _ _ (d,name) h.toOrderly he
  have hn : ∀ x, ((detached s id (d,name)).nodes x).nlinks = (s.nodes x).nlinks := fun _ => nlinks_detached
  have hdone := @moveEntry_done s id d name
  have htaken := @moveEntry_taken s id d name
  generalize detached s id (d,name) = t at ht hn hdone htaken
  have hfind : (t.nodes d).children.findByName name =
      update s.entries (s.names.home id) none (d,name) := by
    rw [← ht.entries,entries_eq ((ht.active d).trans ha) (ht.isDir.trans hd)]
  cases hf : (t.nodes d).children.findByName name with
  | none =>
    obtain ⟨ch,hins,hch⟩ := @Children.Ok.insert_spec _ _ id (ht.tables d ha hd) h0 hl hf
    refine .of_ok (hdone hins) ⟨hfind.symm.trans hf,ht.table ha hd hch,fun x => ?_⟩
    exact nlinks_setTable.trans (hn x)
  | some y =>
    obtain ⟨ch,hins,hok,hsame⟩ :=
      @Children.Ok.insert_taken _ _ id (ht.tables d ha hd) (by rw [hf]; exact nofun)
    have hu := ht.table (v := (t.nodes d).children.findByName name) ha hd
      ⟨hok,hsame.trans (update_eq_self name _).symm⟩
    rw [hfind,update_eq_self] at hu
    refine .of_error (htaken hins) ((rehomed_restored hu h.toOrderly he).same h fun x => ?_)
    exact nlinks_restored.trans (nlinks_setTable.trans (hn x))

/-- The links of the directories follow a directory that moves. -/
def relink (t : MikuVfs) (id old new : Nat) : MikuVfs :=
  if new ≠ old ∧ (t.nodes id).isDir then
    let u := setLinks t old ((t.nodes old).nlinks - 1)
    setLinks u new (min ((u.nodes new).nlinks + 1) 65535)
  else t

theorem Rehomed.relink (h : Rehomed s t id e E) : Rehomed s (relink t id old new) id e E := by
  rw [Vfs.relink]
  split
  · exact h.setLinks.setLinks
  · exact h

theorem nlinks_relink (h : s.Counting C) (hC : C x) (he : s.entries e = some id) (ha : (s.nodes e'.1).active)
    (hd : (s.nodes e'.1).isDir) (hdir : (t.nodes id).isDir = (s.nodes id).isDir)
    (hn : ∀ x, (t.nodes x).nlinks = (s.nodes x).nlinks) (hx : (s.nodes x).active) :
    ((relink t id e.1 e'.1).nodes x).nlinks = ((s.names.leave e id).enter e' id).nlinks x := by
  have hle : _ ≤ (s.nodes x).nlinks := h.tree.links_le he hC hx
  have hlt : x = e'.1 → (s.nodes e'.1).nlinks < 65535 := fun hxe => h.nlinks_lt (hxe ▸ hC) ha hd
  have hN : ((s.names.leave e id).enter e' id).nlinks x = (s.nodes x).nlinks -
      ((if id = x then 1 else 0) + if (s.nodes id).isDir ∧ e.1 = x then 1 else 0) +
      ((if id = x then 1 else 0) + if (s.nodes id).isDir ∧ e'.1 = x then 1 else 0) := rfl
  have hle : (if id = x then 1 else 0) + (if (s.nodes id).isDir ∧ e.1 = x then 1 else 0) ≤
      (s.nodes x).nlinks := hle
  rw [hN,relink,hdir]
  by_cases hmove : e'.1 ≠ e.1 ∧ (s.nodes id).isDir
  · rw [if_pos hmove]
    simp only [nlinks_setLinks,hn,if_neg hmove.1]
    simp only [hmove.2,true_and] at hle ⊢
    by_cases hxn : x = e'.1
    · have hxo : e.1 ≠ x := fun h => hmove.1 (hxn.symm.trans h.symm)
      rw [if_pos hxn,if_neg hxo,if_pos hxn.symm] at *
      have := hlt hxn
      rw [← hxn] at this ⊢
      omega
    · rw [if_neg hxn,if_neg (Ne.symm hxn)]
      by_cases hxo : x = e.1
      · rw [if_pos hxo,if_pos hxo.symm] at *
        rw [← hxo]
        omega
      · rw [if_neg hxo,if_neg (Ne.symm hxo)] at *
        omega
  · rw [if_neg hmove,hn]
    by_cases hdid : (s.nodes id).isDir
    · have hee : e'.1 = e.1 := by
        by_contra hne
        exact hmove ⟨hne,hdid⟩
      rw [hee]
      omega
    · simp only [hdid,Bool.false_eq_true,false_and,if_false] at hle ⊢
      omega

theorem rename_moved (h : s.Counting C)
    (hk : ∀ id, s.resolvePath cwd path = .ok id → KeptAt s cwd path (s.nodes id).name id)
    (hnew : ∀ e, s.splitPath cwd newPath = .ok e →
      (s.nodes e.1).active ∧ byteLen e.2 ≤ childNameLen) : Wp (rename c cwd path newPath) s
      (fun _ t => ∃ e id e', s.namedEntry cwd path = some e ∧ s.resolvePath cwd path = .ok id ∧
        s.splitPath cwd newPath = .ok e' ∧
        Leaves C s t (update (update s.entries e none) e' (some id)) (some e) (some id))
      (fun _ t => Leaves C s t s.entries none none) := by
  refine .look (.refl h) fun id hr => ?_
  refine .look (.refl h) fun _ _ => ?_
  refine .look (.refl h) fun _ _ => ?_
  refine .look (.refl h) fun p hp => ?_
  cases hp
  refine .bind (.reads (fun e' hs => ?_) fun _ _ => .refl h)
  obtain ⟨d,name⟩ := e'
  refine .look (.refl h) fun _ hv => ?_
  refine .look (.refl h) fun _ hdir => ?_
  iterate 5 refine .look (.refl h) fun _ _ => ?_
  obtain ⟨hnamed,he⟩ := hk id hr
  obtain ⟨ha,hl⟩ := hnew (d,name) hs
  have hd : (s.nodes d).isDir := of_if_ok hdir
  refine .bind ((moveEntry_rehomed h he ha hd (byteLen_of_valid hv) hl).mono ?_)
  rintro _ t ⟨hfree,hm,hn⟩
  refine .modify ⟨_,id,(d,name),hnamed,hr,hs,?_⟩
  have hend : Rehomed s (relink t id (s.nodes id).parent d) id (d,name) _ := hm.relink
  exact hend.leaves h he hfree ha hd fun x hC hx =>
    @nlinks_relink _ _ _ _ _ (s.names.home id) (d,name) h hC he ha hd hm.isDir hn hx

end Miku.Vfs
