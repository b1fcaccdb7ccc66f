import Miku.Proofs.QuietCalls
import Miku.Proofs.Resolution

namespace Miku.Vfs
open Lib MikuVfs Function

variable {C : Nat → Prop} {s t : MikuVfs} {id parent : Nat} {name path : Str}

/-- The tree is in order again, with the entries `E`. -/
structure Leaves (C : Nat → Prop) (s t : MikuVfs) (E : Nat × Str → Option Nat)
    (gone : Option (Nat × Str)) (moved : Option Nat) : Prop where
  counting : t.Counting C
  entries : t.entries = E
  continues : Continues s t gone moved

theorem Leaves.refl (h : s.Counting C) : Leaves C s s s.entries none none :=
  ⟨h,rfl,fun _ _ he _ => he,fun _ _ => rfl,fun _ _ => rfl,fun _ _ _ => rfl⟩

theorem findByName_new : Children.new.findByName name = none :=
  Children.ok_new.findByName_eq_none.mpr (by simp [Children.new,Probe.items_empty])

theorem entries_update (ha : ∀ x, (t.nodes x).active = (s.nodes x).active)
    (hk : ∀ x, (t.nodes x).isDir = (s.nodes x).isDir) (hact : (s.nodes d).active)
    (hdir : (s.nodes d).isDir)
    (hd : (t.nodes d).children.findByName = update (s.nodes d).children.findByName name v)
    (ho : ∀ x, x ≠ d → (t.nodes x).children.findByName = (s.nodes x).children.findByName) :
    t.entries = update s.entries (d,name) v := by
  funext ⟨x,n⟩
  by_cases hx : x = d
  · subst hx
    rw [entries_eq ((ha x).trans hact) ((hk x).trans hdir),hd]
    by_cases hn : n = name
    · rw [hn,update_self,update_self]
    · rw [update_of_ne hn,update_of_ne fun he => hn (congrArg Prod.snd he),entries_eq hact hdir]
  · rw [update_of_ne fun he => hx (congrArg Prod.fst he),entries,entries,ha x,hk x,ho x hx]

/-- The same node, its entries and links apart. -/
structure Alike (m n : VNode) : Prop where
  active : n.active = m.active
  kind : n.kind = m.kind
  target : n.symlinkTarget = m.symlinkTarget
  parent : n.parent = m.parent
  name : n.name = m.name

theorem Alike.isDir (h : Alike m n) : n.isDir = m.isDir := by
  rw [VNode.isDir,VNode.isDir,h.kind]

/-- The node `id` has become a file or a directory, with an entry and `k` links to its
parent. -/
structure Adds (C : Nat → Prop) (s t : MikuVfs) (id par : Nat) (name : Str) (k : Nat) : Prop where
  inserted : (s.nodes par).children.insert name id = (true,(t.nodes par).children)
  idle : (s.nodes id).active = false
  bound : id < maxVnodes
  active : (t.nodes id).active
  home : (t.nodes id).parent = par ∧ (t.nodes id).name = name
  links : (t.nodes id).nlinks = if (t.nodes id).isDir then 2 else 1
  children : (t.nodes id).children = Children.new
  other : ∀ x, x ≠ id → Alike (s.nodes x) (t.nodes x)
  tables : ∀ x, x ≠ id → x ≠ par → (t.nodes x).children = (s.nodes x).children
  nlinks : ∀ x, x ≠ id → C x → (t.nodes x).nlinks = (s.nodes x).nlinks + if par = x then k else 0
  hint : t.vnodeFreeHint ≤ maxVnodes

theorem Adds.leaves (ha : Adds C s t id parent name k) (h : s.Counting C)
    (hk : C parent → k = if (t.nodes id).isDir then 1 else 0) (hp : (s.nodes parent).active)
    (hpd : (s.nodes parent).isDir) (h0 : byteLen name ≠ 0)
    (hl : byteLen name ≤ childNameLen) (hf : (s.nodes parent).children.findByName name = none) :
    Leaves C s t (update s.entries (parent,name) (some id)) none none := by
  have hlive : ∀ x, (s.nodes x).active → x ≠ id := by
    rintro x hx rfl
    rw [ha.idle] at hx
    cases hx
  have hne : parent ≠ id := hlive parent hp
  have hid : 0 ≠ id := hlive 0 h.root.1
  obtain ⟨ch,hins,hok,hfind⟩ := @Children.Ok.insert_spec _ _ id (h.tables parent hp hpd) h0 hl hf
  rw [ha.inserted] at hins
  obtain rfl := (Prod.mk.inj hins).2
  have hent : t.entries = update s.entries (parent,name) (some id) := by
    funext ⟨x,n⟩
    by_cases hx : x = parent
    · subst hx
      have hx := ha.other x hne
      rw [entries_eq (hx.active.trans hp) (hx.isDir.trans hpd),hfind]
      by_cases hn : n = name
      · rw [hn,update_self,update_self]
      · rw [update_of_ne hn,update_of_ne fun he => hn (congrArg Prod.snd he),entries_eq hp hpd]
    · rw [update_of_ne fun he => hx (congrArg Prod.fst he)]
      by_cases hxi : x = id
      · subst hxi
        simp [entries,ha.idle,ha.children,findByName_new]
      · have ho := ha.other x hxi
        simp [entries,ho.active,ho.isDir,ha.tables x hxi hx]
  let N := (s.names.birth 0 id (t.nodes id).isDir).enter (parent,name) id
  have hN : N.Tree C 0 := by
    refine (h.tree.birth ha.idle _).enter ?_ ?_ ?_ ?_ ?_
    · exact (entries_eq hp hpd).trans hf
    · exact update_self _ _ _
    · exact (update_of_ne hne _ _).trans hp
    · exact (update_of_ne hne _ _).trans hpd
    · exact fun _ f he => hlive id (h.active he) rfl
  have hself : N.live id ∧ N.dir id = (t.nodes id).isDir ∧
      N.nlinks id = (if (t.nodes id).isDir then 2 else 1) ∧ N.home id = (parent,name) := by
    have hnot : ¬((t.nodes id).isDir = true ∧ parent = id) := fun h => hne h.2
    simp only [N,Names.enter,Names.birth,update_self,Names.own,if_neg hid.symm,if_neg hnot,
      if_true,true_and]
    split <;> simp
  have hother : ∀ x, x ≠ id → N.live x = (s.nodes x).active ∧ N.dir x = (s.nodes x).isDir ∧
      (C x → N.nlinks x = (s.nodes x).nlinks + (if parent = x then k else 0)) ∧
      N.home x = ((s.nodes x).parent,(s.nodes x).name) := by
    intro x hx
    refine ⟨?_,?_,fun hC => ?_,?_⟩
    · simp [N,Names.enter,Names.birth,hx,names]
    · simp [N,Names.enter,Names.birth,hx,names]
    · by_cases hpx : parent = x
      · rw [hk (hpx ▸ hC)]
        by_cases hd : (t.nodes id).isDir <;>
          simp [N,Names.enter,Names.birth,hx,Ne.symm hx,names,hd]
      · simp [N,Names.enter,Names.birth,hx,Ne.symm hx,names,hpx]
    · simp [N,Names.enter,Names.birth,hx,names]
  have htree : t.names.Tree C 0 := by
    refine hN.congr ⟨hent,?_,?_,?_,?_⟩
    · funext x
      by_cases hx : x = id
      · rw [hx,hself.1]
        exact ha.active
      · rw [(hother x hx).1]
        exact (ha.other x hx).active
    · intro x _
      by_cases hx : x = id
      · rw [hx,hself.2.1]
        rfl
      · rw [(hother x hx).2.1]
        exact (ha.other x hx).isDir
    · intro x hC _
      by_cases hx : x = id
      · rw [hx,hself.2.2.1]
        exact ha.links
      · rw [(hother x hx).2.2.1 hC]
        exact ha.nlinks x hx hC
    · intro x _ _
      by_cases hx : x = id
      · rw [hx,hself.2.2.2]
        exact Prod.ext ha.home.1 ha.home.2
      · rw [(hother x hx).2.2.2]
        exact Prod.ext (ha.other x hx).parent (ha.other x hx).name
  refine ⟨⟨⟨htree.toShape,?_,?_,ha.hint,?_⟩,htree.counted⟩,hent,?_,?_,?_,?_⟩
  · intro d hd hdd
    by_cases hx : d = id
    · rw [hx,ha.children]
      exact Children.ok_new
    · have ho := ha.other d hx
      by_cases hdp : d = parent
      · rw [hdp]
        exact hok
      · rw [ha.tables d hx hdp]
        exact h.tables d (ho.active ▸ hd) (ho.isDir ▸ hdd)
  · intro x hx
    by_cases hxi : x = id
    · rw [hxi]
      exact ha.bound
    · exact h.bound x ((ha.other x hxi).active ▸ hx)
  · have ho := ha.other 0 hid
    rw [ho.active,ho.isDir]
    exact h.root
  · intro e x he _
    rw [hent]
    by_cases hep : e = (parent,name)
    · rw [hep,entries_eq hp hpd,hf] at he
      cases he
    · rw [update_of_ne hep]
      exact he
  · exact fun x hx => (ha.other x (hlive x hx)).kind
  · exact fun x hx => (ha.other x (hlive x hx)).target
  · exact fun x hx _ => (ha.other x (hlive x hx)).parent

theorem find_of_noDuplicate (h : s.Orderly) (hp : (s.nodes parent).active)
    (hpd : (s.nodes parent).isDir) (hn : s.noDuplicate parent name) :
    (s.nodes parent).children.findByName name = none := by
  rw [noDuplicate] at hn
  split at hn
  · rename_i x hx
    have hv : s.validVnode x := h.valid (h.active (e := (parent,name)) ((entries_eq hp hpd).trans hx))
    rw [hv] at hn
    cases hn
  · assumption

theorem byteLen_of_valid (h : validateName name = .ok u) : byteLen name ≠ 0 := by
  rw [validateName] at h
  split at h
  · cases h
  · rename_i hv
    cases name with
    | nil => simp at hv
    | cons x xs =>
      have := x.utf8Size_pos
      simp only [byteLen,utf8,List.flatMap_cons,List.length_append,String.length_utf8EncodeChar]
      omega

theorem insertEntry_ok {ch : Children} (h : (s.nodes parent).children.insert name id = (true,ch)) :
    makeNode.insertEntry parent name id s = .ok () (s.mapNode parent fun n => { n with children := ch }) := by
  simp [makeNode.insertEntry,h]

section

variable (h : s.Orderly) (hp : (s.nodes parent).active) (h0 : byteLen name ≠ 0)
  (hl : byteLen name ≤ childNameLen)
include h hp h0 hl

theorem place_adds (C : Nat → Prop) (node : MikuVfs → VNode) (hpd : (s.nodes parent).isDir)
    (hf : (s.nodes parent).children.findByName name = none)
    (hnode : ∀ s, (node s).active ∧ (node s).kind = kind ∧ (node s).parent = parent ∧
      (node s).name = name ∧ (node s).nlinks = (if kind = .directory then 2 else 1) ∧
      (node s).children = Children.new) :
    Wp (do
        let id ← allocVnode
        modify fun s => s.initNode id (node s)
        makeNode.insertEntry parent name id
        return id) s
      (fun id t => Adds C s t id parent name 0 ∧ (t.nodes id).kind = kind) (fun _ t => t = s) := by
  refine .bind ?_
  cases hv : s.freeVnode with
  | none => exact .of_error (e := .noSpace) (t := s) (by simp [allocVnode,hv]) rfl
  | some id =>
    refine .of_ok (a := id) (t := { s with vnodeFreeHint := id + 1 }) (by simp [allocVnode,hv])
      (.bind (.modify (.bind ?_)))
    have hidle := freeVnode_inactive hv
    have hne : parent ≠ id := by
      rintro rfl
      rw [hidle] at hp
      cases hp
    obtain ⟨ha,hk,hpar,hname,hlinks,hch⟩ := hnode { s with vnodeFreeHint := id + 1 }
    obtain ⟨ch,hins,-,-⟩ := @Children.Ok.insert_spec _ _ id (h.tables parent hp hpd) h0 hl hf
    refine .of_ok (@insertEntry_ok _ _ _ _ ch ?_) (.pure ⟨?_,?_⟩)
    · simpa [initNode,setNode,hne] using hins
    · constructor
      · simpa [initNode,setNode,mapNode,hne] using hins
      · exact hidle
      · exact freeVnode_lt h.hint hv
      · simpa [initNode,setNode,mapNode,Ne.symm hne] using ha
      · simp [initNode,setNode,mapNode,Ne.symm hne,hpar,hname]
      · simp [initNode,setNode,mapNode,VNode.isDir,Ne.symm hne,hlinks,hk]
      · simp [initNode,setNode,mapNode,Ne.symm hne,hch]
      · intro x hx
        by_cases hxp : x = parent
        · subst hxp
          constructor <;> simp [initNode,setNode,mapNode,hx]
        · constructor <;> simp [initNode,setNode,mapNode,hx,hxp]
      · intro x hx hxp
        simp [initNode,setNode,mapNode,hx,hxp]
      · intro x hx _
        by_cases hxp : x = parent
        · subst hxp
          simp [initNode,setNode,mapNode,hx]
        · simp [initNode,setNode,mapNode,hx,hxp]
      · exact freeVnode_lt h.hint hv
    · simp [initNode,setNode,mapNode,Ne.symm hne,hk]

theorem makeNode_adds (C : Nat → Prop) :
    Wp (makeNode c kind mode target parent name) s
      (fun id t => (Adds C s t id parent name 0 ∧ (t.nodes id).kind = kind) ∧
        (s.nodes parent).isDir ∧ (s.nodes parent).children.findByName name = none)
      (fun _ t => t = s) := by
  unfold makeNode
  refine .look rfl fun _ hdir => ?_
  refine .look rfl fun _ _ => ?_
  refine .look rfl fun _ _ => ?_
  refine .look rfl fun _ hdup => ?_
  have hpd := of_if_ok hdir
  have hf := find_of_noDuplicate h hp hpd (of_if_ok hdup)
  let node (s : MikuVfs) : VNode :=
    { VNode.init parent name kind (s.nodes parent).fsType mode c.cred with
      symlinkTarget := target
      size := byteLen target }
  have hnode (s : MikuVfs) := (⟨rfl,rfl,rfl,rfl,rfl,rfl⟩ : (node s).active ∧ (node s).kind = kind ∧
    (node s).parent = parent ∧ (node s).name = name ∧
    (node s).nlinks = (if kind = .directory then 2 else 1) ∧ (node s).children = Children.new)
  exact (place_adds h hp h0 hl C node hpd hf hnode).imp (fun _ _ ht => ⟨ht,hpd,hf⟩) fun _ _ ht => ht

end

/-- A new node `id` in the entry `(parent,name)`, and nothing else. -/
def Created (C : Nat → Prop) (s t : MikuVfs) (id parent : Nat) (name : Str) : Prop :=
  (s.nodes id).active = false ∧
    Leaves C s t (update s.entries (parent,name) (some id)) none none

section

variable (h : s.Counting C) (hp : (s.nodes parent).active)
include h hp

theorem makeNode_created (h0 : byteLen name ≠ 0) (hl : byteLen name ≤ childNameLen)
    (hk : kind ≠ .directory) :
    Wp (makeNode c kind mode target parent name) s (fun id t => Created C s t id parent name)
      (fun _ t => t = s) := by
  refine (makeNode_adds h.toOrderly hp h0 hl C).imp ?_ fun _ _ ht => ht
  rintro id t ⟨⟨ha,hkind⟩,hpd,hf⟩
  refine ⟨ha.idle,ha.leaves h (fun _ => ?_) hp hpd h0 hl hf⟩
  simp [VNode.isDir,hkind,hk]

theorem createFile_created (hl : byteLen name ≤ childNameLen) :
    Wp (createFile c parent name mode) s (fun id t => Created C s t id parent name)
      (fun _ t => t = s) := by
  refine .look rfl fun _ hv => ?_
  exact makeNode_created h hp (byteLen_of_valid hv) hl (by decide)

theorem symlink_created (hl : byteLen name ≤ childNameLen) :
    Wp (symlink c parent name target) s (fun id t => Created C s t id parent name)
      (fun _ t => t = s) := by
  refine .look rfl fun _ hv => ?_
  refine .bind (.check (fun _ => ?_) fun _ => rfl)
  exact makeNode_created h hp (byteLen_of_valid hv) hl (by decide)

end

/-- The boot puts directories into the root, which is not counted. -/
theorem install_created (h : s.Counting (· ≠ 0)) (hf : s.entries (0,name) = none)
    (h0 : byteLen name ≠ 0) (hl : byteLen name ≤ childNameLen) :
    Wp (install kind fsType mode 0 name) s (fun id t => Created (· ≠ 0) s t id 0 name)
      (fun _ t => t = s) := by
  obtain ⟨hp,hpd⟩ := h.root
  rw [entries_eq hp hpd] at hf
  refine (place_adds h.toOrderly hp h0 hl (· ≠ 0) _ hpd hf fun _ => ⟨rfl,rfl,rfl,rfl,rfl,rfl⟩).imp
    ?_ fun _ _ ht => ht
  rintro id t ⟨ha,-⟩
  exact ⟨ha.idle,ha.leaves h (absurd rfl) hp hpd h0 hl hf⟩

theorem Adds.link (ha : Adds C s t id parent name 0) (hne : parent ≠ id)
    (hc : C parent → (s.nodes parent).nlinks < 65535) :
    Adds C s (t.mapNode parent fun n => { n with nlinks := (n.nlinks + 1) % 65536 })
      id parent name 1 := by
  have hid : (t.mapNode parent fun n => { n with nlinks := (n.nlinks + 1) % 65536 }).nodes id =
      t.nodes id := by
    simp [mapNode,setNode,Ne.symm hne]
  refine ⟨?_,ha.idle,ha.bound,hid ▸ ha.active,hid ▸ ha.home,hid ▸ ha.links,hid ▸ ha.children,?_,?_,
    ?_,ha.hint⟩
  · simpa [mapNode,setNode] using ha.inserted
  · intro x hx
    have ho := ha.other x hx
    by_cases hxp : x = parent
    · subst hxp
      constructor <;> simp [mapNode,setNode,ho.active,ho.kind,ho.target,ho.parent,ho.name]
    · simpa [mapNode,setNode,hxp] using ho
  · intro x hx hxp
    simpa [mapNode,setNode,hxp] using ha.tables x hx hxp
  · intro x hx hC
    have hn := ha.nlinks x hx hC
    by_cases hxp : x = parent
    · subst hxp
      have := hc hC
      simp only [mapNode,setNode,update_self,if_true]
      simp only [if_true,Nat.add_zero] at hn
      omega
    · simpa [mapNode,setNode,hxp,Ne.symm hxp] using hn

/-- There are not enough nodes for the links of a directory to overflow. -/
theorem MikuVfs.Counting.nlinks_lt (h : s.Counting C) (hC : C id) (ha : (s.nodes id).active)
    (hd : (s.nodes id).isDir) : (s.nodes id).nlinks < 65535 := by
  have hle := h.tree.nlinks_le hC ha hd (S := (Finset.range maxVnodes : Set Nat)) fun x hx => by
    simpa using h.bound x hx
  rw [Set.encard_coe_eq_coe_finsetCard,Finset.card_range] at hle
  have : (s.nodes id).nlinks ≤ 1 + maxVnodes + 2 := by exact_mod_cast hle
  exact lt_of_le_of_lt this (by decide)

theorem mkdir_created (h : s.Counting C) (hp : (s.nodes parent).active)
    (hl : byteLen name ≤ childNameLen) :
    Wp (mkdir c parent name mode) s (fun id t => Created C s t id parent name) (fun _ t => t = s) := by
  refine .look rfl fun _ hv => ?_
  have h0 := byteLen_of_valid hv
  refine .bind ((makeNode_adds h.toOrderly hp h0 hl C).mono ?_)
  rintro id t ⟨⟨ha,hkind⟩,hpd,hf⟩
  have hne : parent ≠ id := by
    rintro rfl
    rw [ha.idle] at hp
    cases hp
  have hc : C parent → (s.nodes parent).nlinks < 65535 := fun hC => h.nlinks_lt hC hp hpd
  refine .bind (.modify (Wp.pure ⟨ha.idle,
    (ha.link hne hc).leaves h (fun _ => ?_) hp hpd h0 hl hf⟩))
  simp [mapNode,setNode,Ne.symm hne,VNode.isDir,hkind]

variable {N : Names Nat Str}

theorem Leaves.of_names (h : s.Counting C) (hN : N.Tree C 0) (hent : t.entries = N.entries)
    (hlive : N.live = s.names.live) (hdir : N.dir = s.names.dir)
    (ha : ∀ x, (t.nodes x).active = (s.nodes x).active) (hk : ∀ x, (t.nodes x).kind = (s.nodes x).kind)
    (ht : ∀ x, (t.nodes x).symlinkTarget = (s.nodes x).symlinkTarget)
    (hn : ∀ x, C x → (s.nodes x).active → (t.nodes x).nlinks = N.nlinks x)
    (hh : ∀ x, (s.nodes x).isDir → ((t.nodes x).parent,(t.nodes x).name) = N.home x)
    (hok : ∀ d, (s.nodes d).active → (s.nodes d).isDir → (t.nodes d).children.Ok)
    (hint : t.vnodeFreeHint ≤ maxVnodes)
    (he : ∀ e x, s.entries e = some x → gone ≠ some e → N.entries e = some x)
    (hp : ∀ x, moved ≠ some x → (t.nodes x).parent = (s.nodes x).parent) :
    Leaves C s t N.entries gone moved := by
  have hd : ∀ x, (t.nodes x).isDir = (s.nodes x).isDir := fun x => by
    rw [VNode.isDir,VNode.isDir,hk x]
  have htree : t.names.Tree C 0 := by
    refine hN.congr ⟨hent,?_,?_,?_,?_⟩
    · rw [hlive]
      exact funext ha
    · intro x _
      rw [hdir]
      exact hd x
    · intro x hC hx
      rw [hlive] at hx
      exact hn x hC hx
    · intro x _ hx
      rw [hdir] at hx
      exact hh x hx
  refine ⟨⟨⟨htree.toShape,?_,?_,hint,?_⟩,htree.counted⟩,hent,?_,fun x _ => hk x,fun x _ => ht x,
    fun x _ => hp x⟩
  · intro d hact hdd
    exact hok d (ha d ▸ hact) (hd d ▸ hdd)
  · exact fun x hx => h.bound x (ha x ▸ hx)
  · rw [ha,hd]
    exact h.root
  · intro e x hx hg
    rw [hent]
    exact he e x hx hg

/-- A node that nothing refers to and that holds nothing is given back. -/
theorem Leaves.drop {u : MikuVfs} (h : Leaves C s t E gone moved)
    (hr : ∀ e, E e ≠ some id) (hh : ∀ n, E (id,n) = none) (h0 : id ≠ 0)
    (ho : ∀ x, x ≠ id → u.nodes x = t.nodes x) (ha : (u.nodes id).active = false)
    (hk : (u.nodes id).kind = (t.nodes id).kind)
    (ht : (u.nodes id).symlinkTarget = (t.nodes id).symlinkTarget)
    (hp : (u.nodes id).parent = (t.nodes id).parent) (hint : u.vnodeFreeHint ≤ maxVnodes) :
    Leaves C s u E gone moved := by
  obtain ⟨horder,hent,hcont⟩ := h
  have hue : u.entries = E := by
    rw [← hent]
    funext ⟨x,n⟩
    by_cases hx : x = id
    · subst hx
      rw [hent,hh n]
      simp [MikuVfs.entries,ha]
    · simp [MikuVfs.entries,ho x hx]
  have hT : (t.names.death id).Tree C 0 := horder.tree.death
    (fun e he => hr e (by rw [← hent]; exact he))
    (fun e he => by
      obtain ⟨x,n⟩ := e
      cases he
      exact (congrFun hent (x,n)).trans (hh n))
  have hact : ∀ x, (u.nodes x).active → x ≠ id := by
    rintro x hx rfl
    rw [ha] at hx
    cases hx
  have hsame : (t.names.death id).Same C u.names := by
    refine ⟨hue.trans hent.symm,?_,?_,?_,?_⟩
    · funext x
      by_cases hx : x = id
      · rw [hx,Names.death]
        dsimp only
        rw [update_self]
        exact ha
      · rw [Names.death]
        dsimp only
        rw [update_of_ne hx]
        exact congrArg VNode.active (ho x hx)
    all_goals
      have hne : ∀ x, (t.names.death id).live x → x ≠ id := by
        rintro x hx rfl
        simp [Names.death] at hx
    · exact fun x hx => congrArg VNode.isDir (ho x (hne x hx))
    · exact fun x _ hx => congrArg VNode.nlinks (ho x (hne x hx))
    · exact fun x hx _ => congrArg (fun n : VNode => (n.parent,n.name)) (ho x (hne x hx))
  have htree := hT.congr hsame
  refine ⟨⟨⟨htree.toShape,?_,?_,hint,?_⟩,htree.counted⟩,hue,?_,?_,?_,?_⟩
  · intro d hd hdd
    have hdo := ho d (hact d hd)
    rw [hdo] at hd hdd ⊢
    exact horder.tables d hd hdd
  · intro x hx
    have hxo := ho x (hact x hx)
    rw [hxo] at hx
    exact horder.bound x hx
  · rw [ho 0 (Ne.symm h0)]
    exact horder.root
  · intro e x he hg
    rw [hue,← hent]
    exact hcont.entries e x he hg
  · intro x hx
    refine Eq.trans ?_ (hcont.kind x hx)
    by_cases hxi : x = id
    · rw [hxi,hk]
    · rw [ho x hxi]
  · intro x hx
    refine Eq.trans ?_ (hcont.target x hx)
    by_cases hxi : x = id
    · rw [hxi,ht]
    · rw [ho x hxi]
  · intro x hx hm
    refine Eq.trans ?_ (hcont.parent x hx hm)
    by_cases hxi : x = id
    · rw [hxi,hp]
    · rw [ho x hxi]

end Miku.Vfs
