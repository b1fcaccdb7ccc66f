import Miku.Lib.Names
import Miku.Proofs.DirTables
import Miku.Vfs.Path

namespace Miku.Vfs
open Lib List

namespace MikuVfs

/-- What a name in a directory in use refers to. -/
def entries (s : MikuVfs) (e : Nat × Str) : Option Nat :=
  if (s.nodes e.1).active && (s.nodes e.1).isDir then (s.nodes e.1).children.findByName e.2 else none

def names (s : MikuVfs) : Names Nat Str where
  entries := s.entries
  live id := (s.nodes id).active
  dir id := (s.nodes id).isDir
  nlinks id := (s.nodes id).nlinks
  home id := ((s.nodes id).parent,(s.nodes id).name)

/-- A tree with directories in which names are found. -/
structure Orderly (s : MikuVfs) : Prop where
  shape : s.names.Shape
  tables : ∀ d, (s.nodes d).active → (s.nodes d).isDir → (s.nodes d).children.Ok
  bound : ∀ id, (s.nodes id).active → id < maxVnodes
  hint : s.vnodeFreeHint ≤ maxVnodes
  root : (s.nodes 0).active ∧ (s.nodes 0).isDir

/-- The links to the nodes of `C` are counted. The boot does not count the directories it puts in
the root. -/
structure Counting (C : Nat → Prop) (s : MikuVfs) : Prop extends Orderly s where
  counted : ∀ id, C id → (s.nodes id).active →
    ((s.nodes id).nlinks : ℕ∞) = s.names.references 0 id

theorem Counting.tree {C : Nat → Prop} {s : MikuVfs} (h : s.Counting C) : s.names.Tree C 0 :=
  ⟨h.shape,h.counted⟩

variable {s t : MikuVfs} {d id link r depth : Nat} {name path : Str}

theorem entries_eq (ha : (s.nodes d).active) (hd : (s.nodes d).isDir) :
    s.entries (d,name) = (s.nodes d).children.findByName name := by
  rw [entries,if_pos]
  simp [ha,hd]

theorem of_entries (h : s.entries (d,name) = some id) : (s.nodes d).active ∧ (s.nodes d).isDir := by
  rw [entries] at h
  split at h
  · rename_i hc
    simpa using hc
  · cases h

theorem Orderly.valid (h : s.Orderly) (ha : (s.nodes id).active) : s.validVnode id := by
  simp [validVnode,ha,h.bound id ha]

theorem Orderly.active (h : s.Orderly) (he : s.entries e = some id) : (s.nodes id).active :=
  h.shape.live e id he

theorem Orderly.lookupChild_iff (h : s.Orderly) (ha : (s.nodes d).active) (hd : (s.nodes d).isDir) :
    s.lookupChild d name = .ok id ↔ s.entries (d,name) = some id := by
  rw [entries_eq ha hd,lookupChild]
  cases hf : (s.nodes d).children.findByName name with
  | none => simp
  | some c =>
    have hc : s.validVnode c := h.valid (h.active (e := (d,name)) ((entries_eq ha hd).trans hf))
    simp [hc]

/-- An entry looked up, or the parent of a node that is gone to. -/
inductive Place where
  | entry (d : Nat) (name : Str)
  | parent (id : Nat)

/-- The places of a walk. `via` are those of following a link. -/
def walkPlaces (s : MikuVfs) (follow : Nat → Except VfsError Nat) (via : Nat → List Place)
    (last : Bool) : List Str → Nat → List Place
  | [], _ => []
  | c :: cs, cur =>
    if c.isEmpty || isDot c then walkPlaces s follow via last cs cur
    else if isDotDot c then .parent cur :: walkPlaces s follow via last cs (s.upward cur)
    else .entry cur c ::
      match s.lookupChild cur c with
      | .error _ => []
      | .ok next =>
        if (s.nodes next).isSymlink && (last || cs.any isName) then
          via next ++
            match follow next with
            | .error _ => []
            | .ok next => walkPlaces s follow via last cs next
        else walkPlaces s follow via last cs next

def linkPlaces (s : MikuVfs) : Nat → Nat → List Place
  | 0, _ => []
  | n + 1, link =>
    if !(s.nodes link).isSymlink then []
    else
      let target := (s.nodes link).symlinkTarget
      .parent link :: walkPlaces s (s.followSymlink n) (linkPlaces s n) true (splitSlash target)
        (startOf target (s.linkBase link))

def places (s : MikuVfs) (last : Bool) (cwd : Nat) (path : Str) : List Place :=
  walkPlaces s (s.followSymlink maxSymlinkDepth) (s.linkPlaces maxSymlinkDepth) last
    (splitSlash (trim path)) (startOf (trim path) cwd)

/-- A place in a node in use, other than the entry that goes and the parent of the moved
node. -/
def Steady (s : MikuVfs) (gone : Option (Nat × Str)) (moved : Option Nat) : Place → Prop
  | .entry d name => (s.nodes d).active ∧ gone ≠ some (d,name)
  | .parent id => (s.nodes id).active ∧ moved ≠ some id

/-- `path` does not go through the entry `gone` nor up from the node `moved`. -/
def Avoids (s : MikuVfs) (gone : Option (Nat × Str)) (moved : Option Nat) (last : Bool) (cwd : Nat)
    (path : Str) : Prop :=
  ∀ p ∈ s.places last cwd path, Steady s gone moved p

/-- The nodes of `s` are still what they were, and so are its entries but for one. -/
structure Continues (s t : MikuVfs) (gone : Option (Nat × Str)) (moved : Option Nat) : Prop where
  entries : ∀ e c, s.entries e = some c → gone ≠ some e → t.entries e = some c
  kind : ∀ id, (s.nodes id).active → (t.nodes id).kind = (s.nodes id).kind
  target : ∀ id, (s.nodes id).active → (t.nodes id).symlinkTarget = (s.nodes id).symlinkTarget
  parent : ∀ id, (s.nodes id).active → moved ≠ some id → (t.nodes id).parent = (s.nodes id).parent

section Frame

variable {gone : Option (Nat × Str)} {moved : Option Nat} {f : Nat → Except VfsError Nat}
  {cs : List Str}

section

variable (hx : Continues s t gone moved)
include hx

theorem Continues.isSymlink (ha : (s.nodes id).active) :
    (t.nodes id).isSymlink = (s.nodes id).isSymlink := by
  rw [VNode.isSymlink,VNode.isSymlink,hx.kind id ha]

theorem Continues.upward (hp : Steady s gone moved (.parent id)) : t.upward id = s.upward id := by
  rw [MikuVfs.upward,MikuVfs.upward,hx.parent id hp.1 hp.2]

theorem Continues.linkBase (hp : Steady s gone moved (.parent id)) :
    t.linkBase id = s.linkBase id := by
  rw [MikuVfs.linkBase,MikuVfs.linkBase,hx.parent id hp.1 hp.2]

end

section

variable (hs : s.Orderly) (ht : t.Orderly) (hx : Continues s t gone moved)
include hs ht hx

theorem walk_continues (hf : ∀ link r, (s.nodes link).active → f link = .ok r →
      (∀ p ∈ via link, Steady s gone moved p) → g link = .ok r)
    (h : s.walk f limited last depth cs cur = .ok r)
    (hp : ∀ p ∈ s.walkPlaces f via last cs cur, Steady s gone moved p) :
    t.walk g limited last depth cs cur = .ok r := by
  induction cs generalizing depth cur with
  | nil => exact h
  | cons c cs ih =>
    rw [walk] at h ⊢
    rw [walkPlaces] at hp
    split
    · rename_i hc
      rw [if_pos hc] at h hp
      exact ih h hp
    rename_i hc
    rw [if_neg hc] at h hp
    split
    · rename_i hdd
      rw [if_pos hdd] at h hp
      rw [hx.upward (hp _ mem_cons_self)]
      exact ih h fun p hm => hp p (mem_cons_of_mem _ hm)
    rename_i hdd
    rw [if_neg hdd] at h hp
    split
    · rename_i hl
      rw [if_pos hl] at h
      cases h
    rename_i hl
    rw [if_neg hl] at h
    split at h
    · cases h
    rename_i hdir
    split at h
    · cases h
    rename_i next hn
    -- the entry is the same in both, and so is the node it refers to
    obtain ⟨hact,hgone⟩ := hp _ mem_cons_self
    have hdir : (s.nodes cur).isDir := by simpa using hdir
    have he := (hs.lookupChild_iff hact hdir).mp hn
    have he' := hx.entries _ next he hgone
    obtain ⟨hact',hdir'⟩ := of_entries he'
    have hn' := (ht.lookupChild_iff hact' hdir').mpr he'
    have hrest := fun p hm => hp p (mem_cons_of_mem _ hm)
    rw [hn] at hrest
    rw [if_neg (by simp [hdir']),hn']
    dsimp only at hrest ⊢
    rw [hx.isSymlink (hs.active he)]
    split at h
    · rename_i hsym
      rw [if_pos hsym] at hrest ⊢
      split at h
      · cases h
      rename_i next' hfn
      rw [hf next next' (hs.active he) hfn fun p hm => hrest p (mem_append_left _ hm)]
      rw [hfn] at hrest
      exact ih h fun p hm => hrest p (mem_append_right _ hm)
    · rename_i hsym
      rw [if_neg hsym] at hrest ⊢
      exact ih h hrest

theorem followSymlink_continues
    (n : Nat) (link r : Nat) (ha : (s.nodes link).active) (h : s.followSymlink n link = .ok r)
    (hp : ∀ p ∈ s.linkPlaces n link, Steady s gone moved p) : t.followSymlink n link = .ok r := by
  induction n generalizing link r with
  | zero => cases h
  | succ n ih =>
    rw [followSymlink] at h ⊢
    rw [linkPlaces] at hp
    rw [hx.isSymlink ha,hx.target link ha]
    split at h
    · rename_i hsym
      rw [if_pos hsym]
      exact h
    · rename_i hsym
      rw [if_neg hsym] at hp ⊢
      dsimp only at h hp ⊢
      split at h
      · cases h
      · rename_i hempty
        rw [if_neg hempty,hx.linkBase (hp _ mem_cons_self)]
        exact walk_continues hs ht hx ih h fun p hm => hp p (mem_cons_of_mem _ hm)

theorem resolveWith_continues
    (h : s.resolveWith last cwd path = .ok r) (hp : s.Avoids gone moved last cwd path) :
    t.resolveWith last cwd path = .ok r := by
  rw [resolveWith] at h ⊢
  split at h
  · rename_i he
    rw [if_pos he]
    exact h
  rename_i he
  rw [if_neg he]
  split at h
  · cases h
  rename_i hb
  rw [if_neg hb]
  exact walk_continues hs ht hx (followSymlink_continues hs ht hx maxSymlinkDepth) h hp

end

end Frame

/-- The components that a walk does something at. -/
def components (path : Str) : List Str := (splitSlash (trim path)).filter fun c => !(c.isEmpty || isDot c)

/-- The last component of a path, in the directory the others lead to. -/
def namedEntry (s : MikuVfs) (cwd : Nat) (path : Str) : Option (Nat × Str) :=
  match (components path).getLast? with
  | none => none
  | some name =>
    if isDotDot name then none
    else
      match s.walk (s.followSymlink maxSymlinkDepth) true true 0 (components path).dropLast
          (startOf (trim path) cwd) with
      | .ok d => some (d,name)
      | .error _ => none

section Named

variable {f : Nat → Except VfsError Nat} {cs : List Str}

theorem isName_iff : isName c ↔ ¬(c.isEmpty || isDot c) ∧ ¬isDotDot c := by simp [isName]

theorem any_isName_filter :
    (cs.filter fun c => !(c.isEmpty || isDot c)).any isName = cs.any isName := by
  rw [List.any_filter]
  refine congrArg cs.any (funext fun c => ?_)
  cases hc : isName c with
  | true => rw [Bool.eq_false_iff.mpr (isName_iff.mp hc).1,Bool.not_false,Bool.and_self]
  | false => rw [Bool.and_false]

/-- A walk passes over what is empty or a dot. -/
theorem walk_filter : s.walk f limited last depth (cs.filter fun c => !(c.isEmpty || isDot c)) cur =
      s.walk f limited last depth cs cur := by
  induction cs generalizing depth cur with
  | nil => rfl
  | cons c cs ih =>
    by_cases hc : (c.isEmpty || isDot c) = true
    · rw [filter_cons_of_neg (by simp [hc]),ih,walk,if_pos hc]
    · rw [filter_cons_of_pos (by simp [hc]),walk,walk]
      simp only [ih,any_isName_filter]

/-- A walk to a name follows every link before it. -/
theorem walk_concat (hn : isName name) : s.walk f limited last depth (init ++ [name]) cur =
      (s.walk f limited true depth init cur).bind fun d =>
        s.walk f limited last (depth + init.countP isName) [name] d := by
  induction init generalizing depth cur with
  | nil => rfl
  | cons c cs ih =>
    have hany : (cs ++ [name]).any isName = true := by
      rw [any_append,any_cons,hn,Bool.true_or,Bool.or_true]
    rw [cons_append,walk,walk]
    split
    · rename_i hc
      have hcn : ¬isName c := fun h => (isName_iff.mp h).1 hc
      rw [ih,countP_cons_of_neg hcn]
    split
    · rename_i hdd
      have hcn : ¬isName c := fun h => (isName_iff.mp h).2 hdd
      rw [ih,countP_cons_of_neg hcn]
    rename_i hc hdd
    rw [countP_cons_of_pos (isName_iff.mpr ⟨hc,hdd⟩),hany,Bool.or_true,Bool.true_or,
      show depth + (cs.countP isName + 1) = depth + 1 + cs.countP isName by omega]
    split
    · rfl
    split
    · rfl
    cases s.lookupChild cur c with
    | error e => rfl
    | ok next =>
      dsimp only
      split
      · cases f next with
        | error e => rfl
        | ok next => exact ih
      · exact ih

/-- The last name of a path is looked up and, in a walk that leaves it at that, not followed. -/
theorem walk_name_iff (hn : isName name) : s.walk f limited false depth [name] d = .ok id ↔
      ¬(limited && decide (maxPathDepth < depth + 1)) ∧ (s.nodes d).isDir ∧
        s.lookupChild d name = .ok id := by
  obtain ⟨hc,hdd⟩ := isName_iff.mp hn
  rw [walk,if_neg hc,if_neg hdd]
  split
  · rename_i hl
    exact ⟨nofun,fun h => absurd hl h.1⟩
  rename_i hl
  split
  · rename_i hdir
    simp_all
  rename_i hdir
  cases s.lookupChild d name with
  | error e => simp
  | ok next => simp_all [walk]

/-- A resolution is one of the last name in the directory the others lead to. -/
theorem resolveWith_of_named (he : s.namedEntry cwd path = some (d,name)) :
    isName name ∧ ∀ last, s.resolveWith last cwd path =
      if maxVnodes ≤ startOf (trim path) cwd then .error .invalidPath
      else s.walk (s.followSymlink maxSymlinkDepth) true last
        ((components path).dropLast.countP isName) [name] d := by
  rw [namedEntry] at he
  split at he
  · cases he
  rename_i n hlast
  split at he
  · cases he
  rename_i hdd
  split at he
  · rename_i d' hw
    cases he
    have hcs := dropLast_append_getLast? name hlast
    have hn : isName name := by
      have hm := (mem_filter.mp (mem_of_getLast? hlast)).2
      exact isName_iff.mpr ⟨by simpa using hm,hdd⟩
    have hne : ¬(trim path).isEmpty := by
      intro hempty
      have : components path = [] := by
        rw [components,List.isEmpty_iff.mp hempty]
        rfl
      rw [this] at hlast
      cases hlast
    refine ⟨hn,fun last => ?_⟩
    rw [resolveWith,if_neg hne,← walk_filter,← components,← hcs,walk_concat hn,hcs,hw,Nat.zero_add]
    rfl
  · cases he

end Named

end MikuVfs

end Miku.Vfs
