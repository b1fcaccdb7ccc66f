import Miku.Proofs.NameLaw

namespace Miku.Vfs
open Lib MikuVfs

variable {s t : MikuVfs} {c : Ctx} {r d : Nat} {name path : Str}
    {f : Nat → Except VfsError Nat}

/-- The components `cs` lead from `cur` to `r`, every link among them followed, without a
bound on the links or the names. -/
inductive Leads (s : MikuVfs) : Nat → List Str → Nat → Prop
  | done {cur : Nat} : Leads s cur [] cur
  | stay {c : Str} {cs : List Str} {cur r : Nat} (hc : c.isEmpty || isDot c) (h : Leads s cur cs r) :
      Leads s cur (c :: cs) r
  | up {c : Str} {cs : List Str} {cur r : Nat} (hc : isDotDot c) (h : Leads s (s.upward cur) cs r) :
      Leads s cur (c :: cs) r
  | enter {c : Str} {cs : List Str} {cur next r : Nat} (hc : isName c)
      (hdir : (s.nodes cur).isDir) (hn : s.lookupChild cur c = .ok next)
      (hs : ¬(s.nodes next).isSymlink) (h : Leads s next cs r) : Leads s cur (c :: cs) r
  | follow {c : Str} {cs : List Str} {cur link mid r : Nat} (hc : isName c)
      (hdir : (s.nodes cur).isDir) (hn : s.lookupChild cur c = .ok link) (hs : (s.nodes link).isSymlink)
      (ht : Leads s (startOf (s.nodes link).symlinkTarget (s.linkBase link))
        (splitSlash (s.nodes link).symlinkTarget) mid) (h : Leads s mid cs r) : Leads s cur (c :: cs) r

/-- Where the target of a link leads. -/
def Points (s : MikuVfs) (link r : Nat) : Prop :=
  Leads s (startOf (s.nodes link).symlinkTarget (s.linkBase link))
    (splitSlash (s.nodes link).symlinkTarget) r

theorem walk_leads (hf : ∀ link r, (s.nodes link).isSymlink → f link = .ok r → Points s link r)
    (h : s.walk f limited true depth cs cur = .ok r) : Leads s cur cs r := by
  induction cs generalizing depth cur with
  | nil =>
    cases h
    exact .done
  | cons c cs ih =>
    rw [walk] at h
    split at h
    · rename_i hc
      exact .stay hc (ih h)
    rename_i hc
    split at h
    · rename_i hdd
      exact .up hdd (ih h)
    rename_i hdd
    have hname : isName c := isName_iff.mpr ⟨hc,hdd⟩
    split at h
    · cases h
    split at h
    · cases h
    rename_i hdir
    have hdir : (s.nodes cur).isDir := by simpa using hdir
    split at h
    · cases h
    rename_i next hn
    rw [Bool.true_or,Bool.and_true] at h
    split at h
    · rename_i hs
      split at h
      · cases h
      · rename_i mid hfn
        exact .follow hname hdir hn hs (hf next mid hs hfn) (ih h)
    · rename_i hs
      exact .enter hname hdir hn hs (ih h)

theorem followSymlink_points {n link : Nat} (hs : (s.nodes link).isSymlink)
    (h : s.followSymlink n link = .ok r) : Points s link r := by
  induction n generalizing link r with
  | zero => cases h
  | succ n ih =>
    rw [followSymlink,if_neg (by simp [hs])] at h
    dsimp only at h
    split at h
    · cases h
    · exact walk_leads (fun _ _ => ih) h

section

variable (he : s.namedEntry cwd path = some (d,name))
include he

theorem leads_of_named : Leads s (startOf (trim path) cwd) (components path).dropLast d := by
  rw [namedEntry] at he
  split at he
  · cases he
  split at he
  · cases he
  split at he
  · rename_i hw
    cases he
    exact walk_leads (fun _ _ => followSymlink_points) hw
  · cases he

/-- `resolve_path_lstat` stops at the entry that the path names. -/
theorem lstat_of_named (hd : (s.nodes d).isDir)
    (hl : s.lookupChild d name = .ok l) (hb : startOf (trim path) cwd < maxVnodes)
    (hlen : (components path).length ≤ maxPathDepth) : s.resolvePathLstat cwd path = .ok l := by
  obtain ⟨hn,hr⟩ := resolveWith_of_named he
  have hne : components path ≠ [] := by
    intro hnil
    rw [namedEntry,hnil] at he
    cases he
  have hpos := List.length_pos_of_ne_nil hne
  have hcount : (components path).dropLast.countP isName ≤ (components path).length - 1 :=
    List.length_dropLast ▸ List.countP_le_length
  rw [resolvePathLstat,hr,if_neg (Nat.not_le.mpr hb)]
  refine (walk_name_iff hn).mpr ⟨?_,hd,hl⟩
  simp only [Bool.true_and,decide_eq_true_eq]
  omega

theorem points_of_resolvePath
    (hl : s.lookupChild d name = .ok l) (hs : (s.nodes l).isSymlink)
    (h : s.resolvePath cwd path = .ok r) : Points s l r := by
  obtain ⟨hn,hr⟩ := resolveWith_of_named he
  rw [resolvePath,hr] at h
  split at h
  · cases h
  obtain ⟨hc,hdd⟩ := isName_iff.mp hn
  rw [walk,if_neg hc,if_neg hdd] at h
  split at h
  · cases h
  split at h
  · cases h
  rw [hl] at h
  dsimp only at h
  rw [hs,Bool.true_or,Bool.and_self,if_pos rfl] at h
  split at h
  · cases h
  · rename_i r' hf
    cases h
    exact followSymlink_points hs hf

end

/-- What a removal changes: the node loses a link, and no node but it and its directory
changes. -/
structure Takes (s t : MikuVfs) (l : Nat) : Prop where
  nlinks : (t.nodes l).nlinks = (s.nodes l).nlinks - 1
  other : ∀ id, id ≠ l → id ≠ (s.nodes l).parent → t.nodes id = s.nodes id

/-- A reason for which the removal of a node is refused. -/
def Refused (s : MikuVfs) (c : Ctx) (l : Nat) : Prop :=
  (s.nodes l).isReadonlyFs ∨ (s.nodes l).immutable ∨ ¬s.checkDirWrite c (s.nodes l).parent

theorem of_if_refused
    (h : (if b then .error e else .ok ()) = (.error e' : Except VfsError Unit)) : b = true := by
  cases b with
  | true => rfl
  | false => cases h

theorem Takes.freeIfUnused (h : Takes s t l) :
    Takes s (if (t.nodes l).nlinks = 0 ∧ (t.nodes l).refcount = 0 then (t.freeFilePages l).dropVnode l
      else t) l := by
  split
  · constructor
    · rw [← h.nlinks]
      simp [dropVnode,mapNode,setNode,freeFilePages]
    · intro id hl hp
      rw [← h.other id hl hp]
      simp [dropVnode,mapNode,setNode,freeFilePages,hl]
  · exact h

theorem unlink_takes (h : s.resolvePathLstat cwd path = .ok l) (hs : (s.nodes l).isSymlink) :
    Wp (unlink c cwd path) s (fun _ t => Takes s t l) (fun _ t => t = s ∧ Refused s c l) := by
  have hkind : (s.nodes l).kind = .symlink := by simpa [VNode.isSymlink] using hs
  have hdir : (s.nodes l).isDir = false := by simp [VNode.isDir,hkind]
  refine .bind (.reads (fun id hid => ?_) fun e he => by cases h.symm.trans he)
  cases h.symm.trans hid
  refine .bind (.reads (fun _ _ => ?_) fun e he => by simp [hdir] at he)
  refine .bind (.reads (fun _ _ => ?_) fun e he => ⟨rfl,.inl (of_if_refused he)⟩)
  refine .bind (.reads (fun _ _ => ?_) fun e he => ⟨rfl,.inr (.inl (of_if_refused he))⟩)
  refine .bind (.reads (fun p hp => ?_) fun e he => by cases he)
  cases hp
  refine .bind (.reads (fun _ _ => ?_) fun e he => ⟨rfl,.inr (.inr fun hw => ?_)⟩)
  · refine .bind (.modify (.bind (.modify (.modify ?_))))
    refine .freeIfUnused ?_
    constructor
    · exact nlinks_setLinks.trans ((if_pos rfl).trans (congrArg (· - 1) nlinks_setTable))
    · intro id hl hp
      simp [mapNode,setNode,hl,hp]
  · rw [if_pos hw] at he
    cases he

/-- The node `r` has become the entry `e`; the other nodes are the same, their entries and links
apart. -/
structure MovedTo (s t : MikuVfs) (r : Nat) (e : Nat × Str) : Prop where
  home : t.names.home r = e
  same : (t.nodes r).active = (s.nodes r).active ∧ (t.nodes r).kind = (s.nodes r).kind ∧
    (t.nodes r).symlinkTarget = (s.nodes r).symlinkTarget
  other : ∀ x, x ≠ r → Alike (s.nodes x) (t.nodes x)

theorem MovedTo.alike (h : MovedTo s t r e) (ha : ∀ x, Alike (t.nodes x) (u.nodes x)) :
    MovedTo s u r e :=
  ⟨(Prod.ext (ha r).parent (ha r).name).trans h.home,⟨(ha r).active.trans h.same.1,
    (ha r).kind.trans h.same.2.1,(ha r).target.trans h.same.2.2⟩,fun x hx => (h.other x hx).trans (ha x)⟩

theorem movedTo_setHome (h : ∀ x, Alike (s.nodes x) (t.nodes x)) : MovedTo s (setHome t r e) r e := by
  constructor
  · simp [names,setHome,mapNode,setNode]
  · simp [setHome,mapNode,setNode,(h r).active,(h r).kind,(h r).target]
  · intro x hx
    simpa [setHome,mapNode,setNode,hx] using h x

theorem moveEntry_movedTo : Wp (moveEntry r (s.nodes r).parent d name) s
    (fun _ t => MovedTo s t r (d,name)) (fun _ t => ∀ x, Alike (s.nodes x) (t.nodes x)) := by
  have hout : MovedTo s (detached s r (d,name)) r (d,name) :=
    movedTo_setHome fun _ => alike_setTable
  cases hins : ((detached s r (d,name)).nodes d).children.insert name r with
  | mk done ch =>
  have hin : MovedTo s (setTable (detached s r (d,name)) d ch) r (d,name) :=
    hout.alike fun _ => alike_setTable
  cases done with
  | true => exact .of_ok (moveEntry_done hins) hin
  | false =>
    refine .of_error (moveEntry_taken hins) fun x => ?_
    -- the node gets back the place it had
    refine Alike.trans ?_ alike_setTable
    by_cases hx : x = r
    · subst hx
      obtain ⟨ha,hk,ht⟩ := hin.same
      constructor <;> simp [setHome,mapNode,setNode,ha,hk,ht]
    · simpa [setHome,mapNode,setNode,hx] using hin.other x hx

/-- What a `rename` moves is the node that the path resolves to. -/
theorem rename_moves {P : Nat → Prop} (hr : ∀ r, s.resolvePath cwd path = .ok r → P r) :
    Wp (rename c cwd path newPath) s
      (fun _ t => ∃ r e, P r ∧ s.splitPath cwd newPath = .ok e ∧ MovedTo s t r e)
      (fun _ t => ∀ x, Alike (s.nodes x) (t.nodes x)) := by
  have hrefl : ∀ x, Alike (s.nodes x) (s.nodes x) := fun _ => ⟨rfl,rfl,rfl,rfl,rfl⟩
  refine .look hrefl fun r hid => ?_
  refine .look hrefl fun _ _ => ?_
  refine .look hrefl fun _ _ => ?_
  refine .look hrefl fun p hp => ?_
  cases hp
  refine .bind (.reads (fun e hs => ?_) fun _ _ => hrefl)
  obtain ⟨d,name⟩ := e
  iterate 7 refine .look hrefl fun _ _ => ?_
  refine .bind (moveEntry_movedTo.mono fun _ t ht => .modify ⟨r,(d,name),hr r hid,hs,?_⟩)
  have hend : MovedTo s (relink t r (s.nodes r).parent d) r (d,name) := by
    rw [relink]
    split
    · exact (ht.alike fun _ => alike_setLinks).alike fun _ => alike_setLinks
    · exact ht
  exact hend

theorem openExisting_same : Wp (openExisting c flags r) s (fun j _ => j = r) (fun _ _ => True) := by
  refine .look trivial fun _ _ => ?_
  refine .look trivial fun _ _ => ?_
  refine .bind (.check (fun _ => ?_) fun _ => trivial)
  exact .look trivial fun _ _ => .bind (.modify (.pure rfl))

theorem createFile_idle : Wp (createFile c parent name mode) s
    (fun id _ => (s.nodes id).active = false) (fun _ _ => True) := by
  iterate 4 refine .look trivial fun _ _ => ?_
  refine .look trivial fun _ _ => .bind ?_
  cases h : allocVnode s with
  | error e t => exact .of_error h trivial
  | ok id t =>
    refine .of_ok h (.bind (.modify (.bind ?_)))
    exact Wp.trivial.mono fun _ _ _ => Wp.pure (freeVnode_inactive (allocVnode_ok h).1)

/-- What an `open` gives is a descriptor of the node that the path resolves to, or of a new one. -/
theorem open_opens {P : Nat → Prop} (hr : ∀ r, openLookup s cwd path flags = .ok r → P r) :
    Wp («open» c cwd path flags mode) s
      (fun fd t => ∃ r, (t.fdTables c.pid fd).map OpenFile.vnodeId = some r ∧
        (P r ∨ flags.has OpenFlags.create ∧ (s.nodes r).active = false)) (fun _ _ => True) := by
  have hnode : Wp (resolveOrCreate c cwd path flags mode) s
      (fun r _ => P r ∨ flags.has OpenFlags.create ∧ (s.nodes r).active = false)
      (fun _ _ => True) :=
    resolveOrCreate_of (fun _ => trivial)
      (fun r hl => openExisting_same.mono fun j _ h => Or.inl (h.symm ▸ hr r hl : P j))
      fun hcr _ _ => createFile_idle.mono fun _ _ h => .inr ⟨hcr,h⟩
  refine .bind (hnode.mono fun r t hr => ?_)
  refine .look trivial fun _ _ => .bind (wp_fdAlloc (fun _ => trivial) fun fd _ => ?_)
  refine .bind (.modify (.pure ⟨r,?_,hr⟩))
  simp [setFd,mapNode,setNode]

/-- A file, and a link to it in a directory reached through another link. -/
def linked : List Call :=
  [.mkdir kernel 0 ['d'] 0o755,.create kernel 0 ['f'] 0o644,.symlink kernel 0 ['v'] ['d'],
    .symlink kernel 5 ['l'] ['/','f']]

end Miku.Vfs
