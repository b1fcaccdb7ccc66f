import Miku.Proofs.Descriptors
import Miku.Proofs.NameMoves

namespace Miku.Vfs
open Lib MikuVfs Function

variable {C : Nat → Prop} {s t : MikuVfs} {o : Call}

/-- The entry that a call takes away. -/
def Call.gone (s : MikuVfs) : Call → Option (Nat × Str)
  | .unlink _ cwd path => s.namedEntry cwd path
  | .rmdir _ cwd path => s.namedEntry cwd path
  | .rename _ cwd old _ => s.namedEntry cwd old
  | _ => none

/-- The node that a call takes elsewhere. -/
def Call.moved (s : MikuVfs) : Call → Option Nat
  | .rename _ cwd old _ => (s.resolvePath cwd old).toOption
  | _ => none

/-- `E` are the entries after a call that succeeds. -/
def Call.Does (s : MikuVfs) (E : Nat × Str → Option Nat) : Call → Prop
  | .create _ parent name _ => ∃ id, (s.nodes id).active = false ∧
      E = update s.entries (parent,name) (some id)
  | .mkdir _ parent name _ => ∃ id, (s.nodes id).active = false ∧
      E = update s.entries (parent,name) (some id)
  | .symlink _ parent name _ => ∃ id, (s.nodes id).active = false ∧
      E = update s.entries (parent,name) (some id)
  | .link _ cwd existing parent name => ∃ id, s.resolvePathFollow cwd existing = .ok id ∧
      E = update s.entries (parent,name) (some id)
  | .unlink _ cwd path => ∃ e, s.namedEntry cwd path = some e ∧ E = update s.entries e none
  | .rmdir _ cwd path => ∃ e, s.namedEntry cwd path = some e ∧ E = update s.entries e none
  | .rename _ cwd old newPath => ∃ e id e', s.namedEntry cwd old = some e ∧
      s.resolvePath cwd old = .ok id ∧ s.splitPath cwd newPath = .ok e' ∧
      E = update (update s.entries e none) e' (some id)
  | _ => E = s.entries

/-- The entries change as the call says, or not at all; all other paths lead where they
led, and every link to a node of `C` is counted. -/
structure Lawful (C : Nat → Prop) (s : MikuVfs) (o : Call) : Prop where
  done : Wp o.run s (fun _ t => o.Does s t.entries) (fun _ t => t.entries = s.entries)
  resolves : ∀ last cwd path id, s.resolveWith last cwd path = .ok id →
    s.Avoids (o.gone s) (o.moved s) last cwd path → (step s o).resolveWith last cwd path = .ok id
  counted : ∀ id, C id → ((step s o).nodes id).active →
    (((step s o).nodes id).nlinks : ℕ∞) = (step s o).names.references 0 id

/-- What is asked of a call: directories in use, names of at most 32 bytes, links counted
in sixteen bits, and that a path to a node removed or renamed names it where the node is
kept. -/
def Proper (s : MikuVfs) : Call → Prop
  | .create _ parent name _ => (s.nodes parent).active ∧ byteLen name ≤ childNameLen
  | .mkdir _ parent name _ => (s.nodes parent).active ∧ byteLen name ≤ childNameLen
  | .symlink _ parent name _ => (s.nodes parent).active ∧ byteLen name ≤ childNameLen
  | .link _ cwd existing parent name => ((s.nodes parent).active ∧ byteLen name ≤ childNameLen) ∧
      ∀ id, s.resolvePathFollow cwd existing = .ok id →
        (s.nodes id).active ∧ (s.nodes id).nlinks < 65535
  | .unlink _ cwd path => ∀ id, s.resolvePathLstat cwd path = .ok id →
      KeptAt s cwd path (entryName path) id
  | .rmdir _ cwd path => ∀ id, s.resolvePath cwd path = .ok id → KeptAt s cwd path (s.nodes id).name id
  | .rename _ cwd old newPath =>
      (∀ id, s.resolvePath cwd old = .ok id → KeptAt s cwd old (s.nodes id).name id) ∧
      ∀ e, s.splitPath cwd newPath = .ok e → (s.nodes e.1).active ∧ byteLen e.2 ≤ childNameLen
  | _ => False

instance : Decidable (Proper s o) := by
  cases o <;> unfold Proper <;> infer_instance

/-- However a call ends, the tree is in order and has the entries that it is to have. -/
def Settles (C : Nat → Prop) (s : MikuVfs) (o : Call) : Prop :=
  Wp o.run s (fun _ t => ∃ E, o.Does s E ∧ Leaves C s t E (o.gone s) (o.moved s))
    (fun _ t => Leaves C s t s.entries none none)

theorem Continues.mono (h : Continues s t none none) : Continues s t gone moved :=
  ⟨fun e c he _ => h.entries e c he nofun,h.kind,h.target,fun id ha _ => h.parent id ha nofun⟩

theorem Settles.step (h : Settles C s o) :
    (step s o).Counting C ∧ Continues s (step s o) (o.gone s) (o.moved s) := by
  unfold Settles Wp at h
  unfold Vfs.step final
  split at h
  · obtain ⟨E,-,ht⟩ := h
    exact ⟨ht.counting,ht.continues⟩
  · exact ⟨h.counting,Continues.mono h.continues⟩

theorem Settles.lawful (h : Settles C s o) (hs : s.Counting C) : Lawful C s o where
  done := by
    refine h.imp ?_ fun _ _ ht => ht.entries
    rintro _ t ⟨E,hE,ht⟩
    rw [ht.entries]
    exact hE
  resolves last cwd path id hr ha :=
    resolveWith_continues hs.toOrderly h.step.1.toOrderly h.step.2 hr ha
  counted := h.step.1.counted

theorem Settles.of_wp {α : Type} {x : VfsM α} {g : α → Answer} {Q : α → MikuVfs → Prop}
    (hx : Wp x s Q (fun _ t => Leaves C s t s.entries none none)) (ho : o.run = x >>= fun a => pure (g a))
    (hq : ∀ a t, Q a t → ∃ E, o.Does s E ∧ Leaves C s t E (o.gone s) (o.moved s)) : Settles C s o := by
  rw [Settles,ho]
  exact .bind (hx.mono (fun a t h => Wp.pure (hq a t h)))

theorem MikuVfs.Counting.settles (h : s.Counting C) (hC : ∀ id, id ≠ 0 → C id)
    (hp : Proper s o) : Settles C s o := by
  have hstay {α : Type} {x : VfsM α} {Q : α → MikuVfs → Prop} (hx : Wp x s Q fun _ t => t = s) :
      Wp x s Q fun _ t => Leaves C s t s.entries none none :=
    hx.imp (fun _ _ ht => ht) (by rintro _ _ rfl; exact .refl h)
  cases o with
  | create c parent name mode =>
    refine .of_wp (hstay (createFile_created h hp.1 hp.2)) rfl ?_
    exact fun id t ht => ⟨_,⟨id,ht.1,rfl⟩,ht.2⟩
  | mkdir c parent name mode =>
    refine .of_wp (hstay (mkdir_created h hp.1 hp.2)) rfl ?_
    exact fun id t ht => ⟨_,⟨id,ht.1,rfl⟩,ht.2⟩
  | symlink c parent name target =>
    refine .of_wp (hstay (symlink_created h hp.1 hp.2)) rfl ?_
    exact fun id t ht => ⟨_,⟨id,ht.1,rfl⟩,ht.2⟩
  | link c cwd existing parent name =>
    refine .of_wp (hstay (link_entered h hp.1.1 hp.1.2 hp.2)) rfl ?_
    exact fun _ t ⟨id,hid,ht⟩ => ⟨_,⟨id,hid,rfl⟩,ht⟩
  | unlink c cwd path =>
    refine .of_wp (hstay (unlink_removed h hC hp)) rfl ?_
    rintro _ t ⟨e,he,ht⟩
    refine ⟨_,⟨e,he,rfl⟩,?_⟩
    rw [Call.gone,he]
    exact ht
  | rmdir c cwd path =>
    refine .of_wp (hstay (rmdir_removed h hp)) rfl ?_
    rintro _ t ⟨e,he,ht⟩
    refine ⟨_,⟨e,he,rfl⟩,?_⟩
    rw [Call.gone,he]
    exact ht
  | rename c cwd old newPath =>
    refine .of_wp (rename_moved h hp.1 hp.2) rfl ?_
    rintro _ t ⟨e,id,e',he,hid,hs,ht⟩
    refine ⟨_,⟨e,id,e',he,hid,hs,rfl⟩,?_⟩
    rw [Call.gone,Call.moved,he,hid]
    exact ht
  | _ => exact hp.elim

theorem counting_step (hC : ∀ id, id ≠ 0 → C id) (s : MikuVfs) (o : Call) (h : s.Counting C)
    (hp : Proper s o) : (step s o).Counting C :=
  (h.settles hC hp).step.1

theorem counting_run (hC : ∀ id, id ≠ 0 → C id) (hs : s.Counting C) (h : Along step Proper s os) :
    (run s os).Counting C :=
  h.invariant (counting_step hC) hs

/-- Every call of a run of proper calls obeys the law, whether the links to the root are counted
or not. -/
theorem names_lawful (s : MikuVfs) (C : Nat → Prop) (hC : ∀ id, id ≠ 0 → C id) (hs : s.Counting C)
    (os : List Call) (h : Along step Proper s os) : Along step (Lawful C) s os :=
  h.imp_of_invariant (Counting C) (fun _ _ hs hp => (hs.settles hC hp).lawful hs)
    (counting_step hC) hs

theorem entries_bare : bare.entries e = none := by
  have hnew : (bare.nodes e.1).children = Children.new := by
    unfold bare
    dsimp only
    split <;> rfl
  rw [entries,hnew,findByName_new,ite_self]

theorem counting_bare : bare.Counting C := by
  have hroot : ∀ id, (bare.nodes id).active → id = 0 := by
    intro id ha
    by_contra hne
    rw [bare] at ha
    dsimp only at ha
    rw [if_neg hne] at ha
    cases ha
  have hnone : ∀ {e c}, bare.names.entries e ≠ some c := by
    intro e c he
    cases entries_bare.symm.trans he
  refine ⟨⟨⟨fun _ _ he => absurd he hnone,fun _ _ he => absurd he hnone,
    fun _ _ he => absurd he hnone⟩,?_,?_,by decide,by decide⟩,?_⟩
  · intro d ha _
    cases hroot d ha
    exact Children.ok_new
  · intro id ha
    rw [hroot id ha]
    decide
  · intro id _ ha
    cases hroot id ha
    have h1 : holders bare.names.entries 0 = ∅ := by
      ext e
      simp only [holders,Set.mem_ofPred_eq,Set.mem_empty_iff_false,iff_false]
      exact hnone
    have h2 : holders bare.names.ups 0 = ∅ := by
      ext e
      have he : bare.names.entries e = none := entries_bare
      simp [holders,Names.ups,he]
    rw [Names.references,h1,h2,Set.encard_empty]
    rfl

/-- The directories that the boot makes, without the files in them. -/
def bootDirs : List (FsType × Str) :=
  [(.devFS,['d','e','v']),(.procFS,['p','r','o','c']),(.tmpFS,['l','i','b']),(.tmpFS,['m','n','t'])]

def bootDir (s : MikuVfs) (d : FsType × Str) : MikuVfs :=
  final (install .directory d.1 0o755 0 d.2) s

def booted : MikuVfs := bootDirs.foldl bootDir bare

theorem counting_bootDirs (ds : List (FsType × Str)) (h : s.Counting (· ≠ 0))
    (hn : (ds.map Prod.snd).Nodup)
    (hd : ∀ d ∈ ds, s.entries (0,d.2) = none ∧ byteLen d.2 ≠ 0 ∧ byteLen d.2 ≤ childNameLen) :
    (ds.foldl bootDir s).Counting (· ≠ 0) := by
  induction ds generalizing s with
  | nil => exact h
  | cons d ds ih =>
    obtain ⟨hnot,hn⟩ := List.nodup_cons.mp hn
    obtain ⟨hf,h0,hl⟩ := hd d List.mem_cons_self
    have hw : Wp (install .directory d.1 0o755 0 d.2) s _ _ := install_created h hf h0 hl
    have hstep : (bootDir s d).Counting (· ≠ 0) ∧
        ∀ n, n ≠ d.2 → (bootDir s d).entries (0,n) = s.entries (0,n) := by
      unfold Wp at hw
      unfold bootDir final
      split at hw
      · refine ⟨hw.2.counting,fun n hne => ?_⟩
        rw [hw.2.entries,update_of_ne fun he => hne (congrArg Prod.snd he)]
      · rw [hw]
        exact ⟨h,fun _ _ => rfl⟩
    refine ih hstep.1 hn fun x hx => ?_
    rw [hstep.2 x.2 fun he => hnot (he ▸ List.mem_map_of_mem hx)]
    exact hd x (List.mem_cons_of_mem _ hx)

theorem counting_booted : booted.Counting (· ≠ 0) :=
  counting_bootDirs bootDirs counting_bare (by decide) fun d hd => ⟨entries_bare,by
    revert d
    decide⟩

/-- A file with a name in each of two directories loses the first one. Then the directory
moves into the other and is removed. -/
def tidyUp : List Call :=
  [.mkdir kernel 0 ['a'] 0o755,.mkdir kernel 0 ['b'] 0o755,.create kernel 5 ['f'] 0o644,
    .link kernel 0 ['a','/','f'] 6 ['g'],.symlink kernel 0 ['s'] ['/','b','/','g'],
    .unlink kernel 0 ['/','a','/','f'],.rename kernel 0 ['a'] ['b','/','c'],
    .rmdir kernel 0 ['b','/','c']]

theorem names_lawful_tidyUp : Along step Proper booted tidyUp ∧
    Along step (Lawful (· ≠ 0)) booted tidyUp ∧
    ((run booted tidyUp).resolvePath 0 ['s']).toOption = some 7 ∧
    (run booted tidyUp).entries (0,['a']) = none ∧ ((run booted tidyUp).nodes 7).nlinks = 1 := by
  have h : Along step Proper booted tidyUp := by decide +kernel
  refine ⟨h,names_lawful booted (· ≠ 0) (fun _ h => h) counting_booted tidyUp h,?_⟩
  decide +kernel

/-- A file of `/a` gets a second name in `/b`, and another file of `/a` the same one. -/
def sameName : List Call :=
  [.mkdir kernel 0 ['a'] 0o755,.mkdir kernel 0 ['b'] 0o755,.create kernel 5 ['f'] 0o644,
    .link kernel 0 ['a','/','f'] 6 ['g'],.create kernel 5 ['g'] 0o644]

/-- Removing `/b/g` removes `/a/g`, and takes a link from the file of `/b/g`. Of the six
references to the root two are counted. -/
theorem other_entry_removed : booted.Counting (· ≠ 0) ∧ Along step Proper booted sameName ∧
    (run booted sameName).namedEntry 0 ['/','b','/','g'] = some (6,['g']) ∧
    (run booted sameName).entries (6,['g']) = some 7 ∧
    (run booted sameName).entries (5,['g']) = some 8 ∧
    let s := run booted (sameName ++ [.unlink kernel 0 ['/','b','/','g']])
    s.entries (6,['g']) = some 7 ∧ s.entries (5,['g']) = none ∧ s.entries (5,['f']) = some 7 ∧
    (s.nodes 7).nlinks = 1 ∧ (booted.nodes 0).nlinks = 2 := by
  refine ⟨counting_booted,?_⟩
  decide +kernel

end Miku.Vfs
