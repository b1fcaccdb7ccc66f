import Miku.Proofs.QuietCalls

namespace Miku.Vfs
open Lib MikuVfs Function List VNode

variable {s t : MikuVfs} {c : Ctx} {id pid : Nat}

/-- A new descriptor, with the reference it stands for. -/
def addFd (s : MikuVfs) (pid fd : Nat) (f : OpenFile) : MikuVfs :=
  (s.setFd pid fd (some f)).mapNode f.vnodeId VNode.incRef

/-- A descriptor goes, and the reference with it. -/
def dropFd (s : MikuVfs) (pid fd : Nat) (f : OpenFile) : MikuVfs :=
  releaseRef (s.setFd pid fd none) f.vnodeId

theorem refs_setFd :
    (s.setFd pid fd x).refs p = if p = (pid,fd) then x.map OpenFile.vnodeId else s.refs p := by
  obtain ⟨q,e⟩ := p
  unfold MikuVfs.refs setFd
  by_cases hq : q = pid
  · subst hq
    by_cases he : e = fd
    · subst he
      simp
    · simp [he]
  · simp [hq]

theorem Stable.add {f : OpenFile} (h : Stable s) (hn : s.fdTables pid fd = none)
    (hfd : fd < maxOpenFiles) (hv : s.validVnode f.vnodeId = true)
    (hc : (s.nodes f.vnodeId).refcount < 65535) : Stable (addFd s pid fd f) := by
  have hr : ∀ p, (addFd s pid fd f).refs p = if p = (pid,fd) then some f.vnodeId else s.refs p :=
    fun p => refs_setFd
  have hnone : s.refs (pid,fd) = none := by rw [MikuVfs.refs,hn,Option.map_none]
  have hva : ∀ id, (addFd s pid fd f).validVnode id = s.validVnode id := by
    intro id
    by_cases hi : id = f.vnodeId
    · subst hi
      simp [addFd,validVnode,mapNode,setNode,setFd,incRef]
    · simp [addFd,validVnode,mapNode,setNode,setFd,hi]
  refine ⟨?_,?_,?_,h.hint⟩
  · intro q e he
    rw [hr,if_neg (by rintro ⟨⟩; omega)]
    exact h.bound q e he
  · intro p id hp
    rw [hr] at hp
    rw [hva]
    split at hp
    · cases hp
      exact hv
    · exact h.live p id hp
  · intro id
    have he := encard_holders_fill (i := id) hnone ((hr _).trans (if_pos rfl))
      fun p hp => (hr p).trans (if_neg hp)
    rw [descriptors,he]
    have hcount := h.counted id
    rw [descriptors] at hcount
    rw [hcount]
    by_cases hi : f.vnodeId = id
    · subst hi
      simp only [addFd,mapNode,setNode,setFd,update_self,incRef,if_pos]
      rw [Nat.min_eq_left (by omega)]
      norm_cast
    · simp only [addFd,mapNode,setNode,setFd,update_of_ne (Ne.symm hi),if_neg hi]
      norm_cast

theorem Stable.drop {f : OpenFile} (h : Stable s) (hf : s.fdTables pid fd = some f) :
    Stable (dropFd s pid fd f) := by
  have hsome : s.refs (pid,fd) = some f.vnodeId := by rw [MikuVfs.refs,hf,Option.map_some]
  have hv := h.live _ _ hsome
  have hp := h.pos hsome
  -- the state in which the reference is given back, but nothing is freed yet
  have hmid : Stable ((s.setFd pid fd none).mapNode f.vnodeId decRef) := by
    have hr : ∀ p, ((s.setFd pid fd none).mapNode f.vnodeId decRef).refs p =
        if p = (pid,fd) then none else s.refs p := fun p => refs_setFd
    have hva : ∀ id, ((s.setFd pid fd none).mapNode f.vnodeId decRef).validVnode id =
        s.validVnode id := by
      intro id
      by_cases hi : id = f.vnodeId
      · subst hi
        simp [validVnode,mapNode,setNode,setFd,decRef]
      · simp [validVnode,mapNode,setNode,setFd,hi]
    refine ⟨?_,?_,?_,h.hint⟩
    · intro q e he
      rw [hr]
      split
      · rfl
      · exact h.bound q e he
    · intro p id hp
      rw [hr] at hp
      rw [hva]
      split at hp
      · cases hp
      · exact h.live p id hp
    · intro id
      have he := encard_holders_fill (i := id) ((hr _).trans (if_pos rfl)) hsome
        fun p hp => ((hr p).trans (if_neg hp)).symm
      have hcount := h.counted id
      rw [descriptors,he] at hcount
      rw [descriptors,eq_sub_of_cast_eq_add hcount.symm]
      by_cases hi : f.vnodeId = id
      · subst hi
        simp [mapNode,setNode,setFd,decRef]
      · simp [mapNode,setNode,setFd,Ne.symm hi,hi]
  have hc : ((s.setFd pid fd none).validVnode f.vnodeId &&
      decide (0 < ((s.setFd pid fd none).nodes f.vnodeId).refcount)) = true := by
    simp only [Bool.and_eq_true,decide_eq_true_eq]
    exact ⟨hv,hp⟩
  unfold dropFd releaseRef
  rw [if_pos hc]
  exact hmid.quiet quiet_freeIfUnused

/-- What `fork` and `exit` do at each node with an open file. -/
def touch (g : VNode → VNode) (s : MikuVfs) (id : Nat) : MikuVfs :=
  if s.validVnode id then s.mapNode id g else s

section

variable {l : List Nat}

theorem validVnode_touch (hg : ∀ n, (g n).active = n.active) :
    (touch g s j).validVnode id = s.validVnode id := by
  unfold touch
  split
  · by_cases hi : id = j
    · subst hi
      simp [validVnode,mapNode,setNode,hg]
    · simp [validVnode,mapNode,setNode,hi]
  · rfl

theorem nodes_foldl_touch (hg : ∀ n, (g n).active = n.active) (hv : ∀ i ∈ l, s.validVnode i = true) :
    (l.foldl (touch g) s).nodes id = g^[l.count id] (s.nodes id) := by
  induction l generalizing s with
  | nil => rfl
  | cons a l ih =>
    have hva := hv a mem_cons_self
    rw [foldl_cons,ih fun i hi => by
      rw [validVnode_touch hg]
      exact hv i (mem_cons_of_mem _ hi)]
    unfold touch
    rw [if_pos hva]
    by_cases hi : a = id
    · subst hi
      rw [count_cons_self,iterate_succ_apply]
      simp [mapNode,setNode]
    · rw [count_cons_of_ne hi]
      simp [mapNode,setNode,Ne.symm hi]

theorem foldl_touch_rest :
    (l.foldl (touch g) s).fdTables = s.fdTables ∧ (l.foldl (touch g) s).generation = s.generation ∧
      (l.foldl (touch g) s).vnodeFreeHint = s.vnodeFreeHint := by
  induction l generalizing s with
  | nil => exact ⟨rfl,rfl,rfl⟩
  | cons a l ih =>
    have ht : (touch g s a).fdTables = s.fdTables ∧ (touch g s a).generation = s.generation ∧
        (touch g s a).vnodeFreeHint = s.vnodeFreeHint := by
      unfold touch
      split <;> exact ⟨rfl,rfl,rfl⟩
    obtain ⟨h1,h2,h3⟩ := ih (s := touch g s a)
    exact ⟨h1.trans ht.1,h2.trans ht.2.1,h3.trans ht.2.2⟩

end

variable {n : VNode} {k : Nat}

theorem iterate_incRef (h : n.refcount + k ≤ 65535) :
    (incRef^[k] n).active = n.active ∧ (incRef^[k] n).refcount = n.refcount + k := by
  induction k with
  | zero => exact ⟨rfl,rfl⟩
  | succ k ih =>
    obtain ⟨ha,hr⟩ := ih (by omega)
    rw [iterate_succ_apply']
    refine ⟨ha,?_⟩
    simp only [incRef,hr]
    omega

theorem iterate_decRef :
    (decRef^[k] n).active = n.active ∧ (decRef^[k] n).refcount = n.refcount - k := by
  induction k with
  | zero => exact ⟨rfl,rfl⟩
  | succ k ih =>
    rw [iterate_succ_apply']
    refine ⟨ih.1,?_⟩
    simp only [decRef,ih.2]
    omega

theorem Stable.count_openNodes (h : Stable s) (pid id : Nat) :
    ((s.openNodes pid).count id : ℕ∞) = (holders (fun fd => s.refs (pid,fd)) id).encard :=
  count_filterMap_range _ _ fun fd hfd => h.bound pid fd hfd

theorem Stable.mem_openNodes (h : Stable s) (hm : id ∈ s.openNodes pid) : s.validVnode id = true := by
  obtain ⟨fd,_,hfd⟩ := mem_filterMap.mp hm
  exact h.live (pid,fd) id hfd

theorem Stable.fork {parent child : Nat} (h : Stable s) (hn : ∀ fd, s.fdTables child fd = none)
    (hb : ∀ id, (s.nodes id).refcount + (s.openNodes parent).count id ≤ 65535) :
    Stable (forkFds s parent child) := by
  have hnodes : ∀ id, (forkFds s parent child).nodes id =
      incRef^[(s.openNodes parent).count id] (s.nodes id) :=
    fun id => nodes_foldl_touch (fun _ => rfl) fun i hi => h.mem_openNodes hi
  have hr : ∀ p, (forkFds s parent child).refs p =
      if p.1 = child then s.refs (parent,p.2) else s.refs p := by
    rintro ⟨q,e⟩
    unfold MikuVfs.refs forkFds
    by_cases hq : q = child
    · subst hq
      simp
    · simp [hq]
  have hva : ∀ id, (forkFds s parent child).validVnode id = s.validVnode id := by
    intro id
    simp [validVnode,hnodes,(iterate_incRef (hb id)).1]
  refine ⟨?_,?_,?_,?_⟩
  · intro q e he
    rw [hr]
    split
    · exact h.bound parent e he
    · exact h.bound q e he
  · intro p id hp
    rw [hr] at hp
    rw [hva]
    split at hp
    · exact h.live _ _ hp
    · exact h.live _ _ hp
  · intro id
    have hf : Filled s.refs (forkFds s parent child).refs (fun fd => (child,fd))
        (fun fd => s.refs (parent,fd)) := by
      refine ⟨fun a b hab => by cases hab; rfl,fun fd => ?_,fun fd => ?_,fun p hp => ?_⟩
      · simp [MikuVfs.refs,hn]
      · rw [hr,if_pos rfl]
      · rw [hr,if_neg fun hpc => hp p.2 (by rw [← hpc])]
    have hc := h.counted id
    rw [descriptors] at hc
    rw [descriptors,hf.encard,hc,← h.count_openNodes,hnodes,(iterate_incRef (hb id)).2]
    norm_cast
  · exact (foldl_touch_rest.2.2).trans_le h.hint

theorem Stable.exit (h : Stable s) : Stable (releaseFdsOnExit s pid) := by
  have hrest := foldl_touch_rest (g := decRef) (l := s.openNodes pid)
    (s := { s with fdTables := update s.fdTables pid fun _ => none })
  have hnodes : ∀ id, (releaseFdsOnExit s pid).nodes id =
      decRef^[(s.openNodes pid).count id] (s.nodes id) :=
    fun id => nodes_foldl_touch (fun _ => rfl) fun i hi => h.mem_openNodes hi
  have hr : ∀ p, (releaseFdsOnExit s pid).refs p = if p.1 = pid then none else s.refs p := by
    rintro ⟨q,e⟩
    have ht : (releaseFdsOnExit s pid).fdTables = update s.fdTables pid fun _ => none := hrest.1
    unfold MikuVfs.refs
    rw [ht]
    by_cases hq : q = pid
    · subst hq
      simp
    · simp [hq]
  have hva : ∀ id, (releaseFdsOnExit s pid).validVnode id = s.validVnode id := by
    intro id
    simp [validVnode,hnodes,iterate_decRef.1]
  refine ⟨?_,?_,?_,?_⟩
  · intro q e he
    rw [hr]
    split
    · rfl
    · exact h.bound q e he
  · intro p id hp
    rw [hr] at hp
    rw [hva]
    split at hp
    · cases hp
    · exact h.live _ _ hp
  · intro id
    -- read backwards, the table of the process is filled again
    have hf : Filled (releaseFdsOnExit s pid).refs s.refs (fun fd => (pid,fd))
        (fun fd => s.refs (pid,fd)) := by
      refine ⟨fun a b hab => by cases hab; rfl,fun fd => ?_,fun fd => rfl,fun p hp => ?_⟩
      · rw [hr,if_pos rfl]
      · rw [hr,if_neg fun hpc => hp p.2 (by rw [← hpc])]
    have hc := h.counted id
    rw [descriptors,hf.encard,← h.count_openNodes] at hc
    rw [descriptors,eq_sub_of_cast_eq_add hc.symm,hnodes,iterate_decRef.2]
  · exact hrest.2.2.trans_le h.hint

end Miku.Vfs
