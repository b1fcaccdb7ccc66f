import Miku.Lib.Run
import Miku.Proofs.FilePages
import Miku.Vfs.Spec

namespace Miku.Vfs
open Lib MikuVfs Function List AddressSpace

/-- A regular file kept in memory. -/
def MikuVfs.isFile (s : MikuVfs) (id : Nat) : Bool :=
  s.validVnode id && (s.nodes id).isRegular && !(s.nodes id).isReadonlyFs

/-- The bytes of a node: those of the kernel image, or those of its pages. -/
def MikuVfs.bytesOf (s : MikuVfs) (id : Nat) : Bytes :=
  match (s.nodes id).staticData with
  | some sd => fun i => sd[i]?.getD 0
  | none => s.raw id

def MikuVfs.fileOf (s : MikuVfs) (id : Nat) : ByteFile where
  size := (s.nodes id).size
  data := fun i => if i < (s.nodes id).size then s.bytesOf id i else 0
  zero := fun i hi => if_neg (by omega)

def MikuVfs.world (s : MikuVfs) : World where
  file := fun id => if s.isFile id then some (s.fileOf id) else none
  appendOnly := fun id => (s.nodes id).appendOnly
  fds := s.fdTables

/-- Pages belong to one file each, and hold nothing behind its end. -/
structure Filed (s : MikuVfs) : Prop where
  owned : Owned s
  clean : ∀ id, (s.nodes id).active = true → ∀ i, (s.nodes id).size ≤ i → s.raw id i = 0
  static : ∀ id sd, (s.nodes id).active = true → (s.nodes id).staticData = some sd →
    (s.nodes id).size = sd.length ∧ (s.nodes id).immutable = true
  small : ∀ id, (s.nodes id).active = true → (s.nodes id).size < 18446744073709551616
  offsets : ∀ pid fd f, s.fdTables pid fd = some f → f.offset < 18446744073709551616
  hint : s.vnodeFreeHint ≤ maxVnodes

variable {s t : MikuVfs} {c : Ctx} {id : Nat}

theorem active_of_isFile (h : s.isFile id = true) : (s.nodes id).active = true := by
  simp only [isFile,validVnode,Bool.and_eq_true] at h
  exact h.1.1.2

theorem fileOf_congr (hs : (t.nodes id).size = (s.nodes id).size)
    (hst : (t.nodes id).staticData = (s.nodes id).staticData) (hr : t.raw id = s.raw id) :
    t.fileOf id = s.fileOf id := by
  refine ByteFile.ext_data hs fun i hi => ?_
  unfold fileOf bytesOf
  simp [hs,hst,hr]

/-- The contents of one node have changed, at most. -/
structure Changed (s t : MikuVfs) (id : Nat) (f : ByteFile → ByteFile) : Prop where
  filed : Filed t
  file : (s.nodes id).active = true → t.fileOf id = f (s.fileOf id)
  node : ∃ size a, t.nodes id = { s.nodes id with size := size, addrSpace := a }
  nodes : ∀ j, j ≠ id → t.nodes j = s.nodes j
  raw : ∀ j, j ≠ id → (s.nodes j).active = true → t.raw j = s.raw j
  fds : t.fdTables = s.fdTables

variable {f : ByteFile → ByteFile}

theorem Changed.world (h : Changed s t id f) : t.world = s.world.update id f := by
  obtain ⟨size,a,hn⟩ := h.node
  have hkeep : ∀ j, t.isFile j = s.isFile j := by
    intro j
    by_cases hj : j = id
    · subst hj
      simp only [isFile,validVnode,hn]
      rfl
    · simp [isFile,validVnode,h.nodes j hj]
  have hfile : t.world.file = (s.world.update id f).file := by
    funext j
    by_cases hj : j = id
    · subst hj
      simp only [MikuVfs.world,World.update,update_self,hkeep]
      by_cases hf : s.isFile j = true
      · simp [hf,h.file (active_of_isFile hf)]
      · simp [hf]
    · simp only [MikuVfs.world,World.update,update_of_ne hj,hkeep]
      by_cases hf : s.isFile j = true
      · simp only [hf,↓reduceIte]
        rw [fileOf_congr (by rw [h.nodes j hj]) (by rw [h.nodes j hj]) (h.raw j hj (active_of_isFile hf))]
      · simp [hf]
  have happ : t.world.appendOnly = (s.world.update id f).appendOnly := by
    funext j
    by_cases hj : j = id
    · subst hj
      simp [MikuVfs.world,World.update,hn]
    · simp [MikuVfs.world,World.update,h.nodes j hj]
  have hfds : t.world.fds = (s.world.update id f).fds := h.fds
  cases hw : t.world with
  | mk file app fds =>
    rw [hw] at hfile happ hfds
    simp only at hfile happ hfds
    rw [hfile,happ,hfds]

theorem World.ext' {w w' : World} (h1 : w'.file = w.file) (h2 : w'.appendOnly = w.appendOnly)
    (h3 : w'.fds = w.fds) : w' = w := by
  cases w
  cases w'
  simp only at h1 h2 h3
  rw [h1,h2,h3]

theorem raw_touched (ht : Touched s.pageCache p) (j : Nat) :
    MikuVfs.raw { s with pageCache := p } j = s.raw j := by
  funext i
  exact rawByte_congr fun q _ => by
    rw [ht.pages]

theorem Filed.touched (h : Filed s) (ht : Touched s.pageCache p) :
    Filed { s with pageCache := p } ∧ MikuVfs.world { s with pageCache := p } = s.world := by
  refine ⟨⟨⟨ht.ok,?_,h.owned.inj⟩,?_,h.static,h.small,h.offsets,h.hint⟩,?_⟩
  · intro j k q hj hq
    rw [ht.slab]
    exact h.owned.held j k q hj hq
  · intro j hj i hi
    rw [raw_touched ht]
    exact h.clean j hj i hi
  · refine World.ext' ?_ rfl rfl
    funext j
    have hfile : MikuVfs.fileOf { s with pageCache := p } j = s.fileOf j :=
      fileOf_congr rfl rfl (raw_touched ht j)
    simp only [MikuVfs.world,hfile]
    rfl

theorem setFd_cases {f : OpenFile} {x : Option OpenFile} {q e : Nat}
    (h : (s.setFd pid fd x).fdTables q e = some f) : x = some f ∨ s.fdTables q e = some f := by
  unfold setFd at h
  dsimp only at h
  by_cases hq : q = pid
  · subst hq
    by_cases he : e = fd
    · subst he
      rw [update_self,update_self] at h
      exact .inl h
    · rw [update_self,update_of_ne he] at h
      exact .inr h
  · rw [update_of_ne hq] at h
    exact .inr h

theorem Filed.setOffset {n : Nat} (h : Filed s) : Filed (setOffset s pid fd n) ∧
      (setOffset s pid fd n).world = s.world.moveTo pid fd (n % 18446744073709551616) := by
  refine ⟨⟨h.owned.congr rfl fun _ ha => ⟨ha,rfl⟩,h.clean,h.static,h.small,?_,h.hint⟩,rfl⟩
  intro q e f hf
  rcases setFd_cases hf with hx | hf
  · obtain ⟨f',-,rfl⟩ := Option.map_eq_some_iff.mp hx
    exact Nat.mod_lt _ (by decide)
  · exact h.offsets q e f hf

variable (h : Filed s) (ha : (s.nodes id).active = true)
include h ha

theorem readNode_touched {n : Nat} :
    ∃ p, readNode id off n s = .ok ((s.fileOf id).read off n) { s with pageCache := p } ∧
      Touched s.pageCache p := by
  have hsame : Touched s.pageCache s.pageCache := ⟨h.owned.cache,rfl,rfl⟩
  cases hst : (s.nodes id).staticData with
  | some sd =>
    refine ⟨s.pageCache,?_,hsame⟩
    have hsize := (h.static id sd ha hst).1
    simp only [readNode,hst]
    congr 1
    unfold readStatic ByteFile.read
    refine ext_getElem (by simp [fileOf,hsize]) fun i hi hi' => ?_
    have hi2 : i < min n (sd.length - off) := by simpa using hi
    simp only [getElem_take,getElem_drop,getElem_map,getElem_range,fileOf,bytesOf,hst]
    rw [if_pos (by omega),getElem?_eq_getElem (by omega),Option.getD_some]
  | none =>
    have hbytes : s.bytesOf id = s.raw id := by simp [bytesOf,hst]
    by_cases hle : (s.nodes id).size ≤ off
    · refine ⟨s.pageCache,?_,hsame⟩
      simp only [readNode,hst,hle,↓reduceIte]
      congr 1
      unfold ByteFile.read fileOf
      rw [Nat.sub_eq_zero_of_le hle]
      simp
    · obtain ⟨hb,ht⟩ := @readLoop_spec off _ _ _ _ h.owned.cache
        (fun k p hp => h.owned.held id k p ha hp) (Nat.le_refl (min n ((s.nodes id).size - off)))
      refine ⟨_,?_,ht⟩
      simp only [readNode,hst,hle,↓reduceIte]
      congr 1
      rw [hb]
      refine map_congr_left fun i hi => ?_
      have := mem_range.mp hi
      unfold fileOf
      dsimp only
      rw [if_pos (by omega),hbytes]
      rfl

theorem readNode_spec {n : Nat} :
    ∃ t, readNode id off n s = .ok ((s.fileOf id).read off n) t ∧ Filed t ∧ t.world = s.world ∧
      t.fdTables = s.fdTables := by
  obtain ⟨p,hp,ht⟩ := @readNode_touched _ _ h ha off n
  exact ⟨_,hp,(h.touched ht).1,(h.touched ht).2,rfl⟩

variable (hst : (s.nodes id).staticData = none)
include hst

/-- A file with other bytes: they end where its size says. -/
theorem changed_of (hown : Owned u)
    (hself : u.nodes id = { s.nodes id with size := size, addrSpace := a })
    (hnode : ∀ j, j ≠ id → u.nodes j = s.nodes j)
    (hother : ∀ j, j ≠ id → (s.nodes j).active = true → u.raw j = s.raw j)
    (hfds : u.fdTables = s.fdTables) (hhint : u.vnodeFreeHint = s.vnodeFreeHint)
    (hsmall : size < 18446744073709551616) (hclean : ∀ i, size ≤ i → u.raw id i = 0)
    (hsize : size = (f (s.fileOf id)).size)
    (hdata : ∀ i, i < size → u.raw id i = (f (s.fileOf id)).data i) : Changed s u id f := by
  refine ⟨⟨hown,?_,?_,?_,?_,by rw [hhint]; exact h.hint⟩,?_,⟨_,_,hself⟩,hnode,hother,hfds⟩
  · intro j hj i hi
    by_cases hji : j = id
    · subst hji
      rw [hself] at hi
      exact hclean i hi
    · rw [hnode j hji] at hj hi
      rw [hother j hji hj]
      exact h.clean j hj i hi
  · intro j sd hj hsd
    by_cases hji : j = id
    · subst hji
      rw [hself] at hsd
      dsimp only at hsd
      rw [hst] at hsd
      cases hsd
    · rw [hnode j hji] at *
      exact h.static j sd hj hsd
  · intro j hj
    by_cases hji : j = id
    · subst hji
      rw [hself]
      exact hsmall
    · rw [hnode j hji] at *
      exact h.small j hj
  · intro q e f hf
    rw [hfds] at hf
    exact h.offsets q e f hf
  · intro _
    have hs : (u.nodes id).size = size := by rw [hself]
    refine ByteFile.ext_data (hs.trans hsize) fun i hi => ?_
    have hi' : i < (u.nodes id).size := hi
    have hb : u.bytesOf id = u.raw id := by simp [bytesOf,hself,hst]
    simp only [fileOf,if_pos hi',hb]
    exact hdata i (hs ▸ hi')

theorem Filed.byte : (s.fileOf id).data i = s.raw id i := by
  simp only [fileOf,bytesOf,hst]
  split
  · rfl
  · exact (h.clean id ha i (by omega)).symm

theorem Wrote.changed (hw : Wrote s t id (put (s.raw id) off data))
    (hend : off + data.length ≤ maxSize) :
    Changed s (t.mapNode id fun m => { m with size := max m.size (off + data.length) }) id
      fun b => b.write off data := by
  let u := t.mapNode id fun m => { m with size := max m.size (off + data.length) }
  have hself : u.nodes id = { s.nodes id with
      size := max (s.nodes id).size (off + data.length)
      addrSpace := (t.nodes id).addrSpace } := by
    simp only [u,mapNode,setNode,update_self]
    rw [hw.node]
  have hnode : ∀ j, j ≠ id → u.nodes j = t.nodes j := fun j hj => update_of_ne hj _ _
  have hraw : ∀ j, u.raw j = t.raw j := by
    intro j
    unfold MikuVfs.raw
    by_cases hj : j = id
    · subst hj
      rw [hself]
      rfl
    · rw [hnode j hj]
      rfl
  have hown : Owned u := by
    refine hw.owned.congr rfl fun j hj => ?_
    by_cases hji : j = id
    · subst hji
      rw [hself] at hj ⊢
      rw [hw.node]
      exact ⟨hj,rfl⟩
    · rw [hnode j hji] at *
      exact ⟨hj,rfl⟩
  have hmax : maxSize = 65536 := rfl
  have hsmall := h.small id ha
  refine changed_of h ha hst hown hself (fun j hj => (hnode j hj).trans (hw.nodes j hj))
    (fun j hj haj => (hraw j).trans (hw.other j hj haj)) hw.fds hw.hint (by omega) ?_ rfl ?_
  · intro i hi
    rw [hraw,hw.raw,put_other (by omega)]
    exact h.clean id ha i (by omega)
  · intro i _
    rw [hraw,hw.raw]
    show put (s.raw id) off data i = put (s.fileOf id).data off data i
    simp [put,h.byte ha hst]

/-- A write that starts below the greatest size and has the pages it needs. -/
theorem writeNode_ok
    (hne : data ≠ []) (hlt : off < maxSize)
    (hroom : missingPages (s.nodes id).addrSpace off (writtenLength off data) ≤ s.pageCache.slab.free.length) :
    ∃ t, writeNode id off data s = .ok (writtenLength off data) t ∧
      Changed s t id fun b => written b off data := by
  have hlen : (data.take (maxSize - off)).length = writtenLength off data := by
    rw [length_take,writtenLength,Nat.min_comm]
  have hle : writtenLength off data ≤ maxSize - off := Nat.min_le_right _ _
  obtain ⟨t,ht,hw⟩ := @writeLoop_spec _ _ off _ (data.take (maxSize - off))
    h.owned ha .refl (by rw [hlen]; omega) (fun _ => by rw [hlen]; exact hroom)
  have hch := hw.changed h ha hst (by rw [hlen]; omega)
  have hemp : data.isEmpty = false := by simpa using hne
  refine ⟨t.mapNode id fun n => { n with size := max n.size (off + (data.take (maxSize - off)).length) },
    ?_,by simpa [written,hemp] using hch⟩
  have hok : check (decide (off < maxSize)) VfsError.fileTooLarge s = .ok ⟨⟩ s := by
    rw [check,if_pos (decide_eq_true hlt)]
    rfl
  rw [writeNode,bind_of_ok hok,bind_of_ok ht,← hlen]
  rfl

theorem writeNode_spec (hne : data ≠ []) (hroom : off < maxSize →
      missingPages (s.nodes id).addrSpace off (writtenLength off data) ≤ s.pageCache.slab.free.length) :
    Wp (writeNode id off data) s (fun n t => n = writtenLength off data ∧ off < maxSize ∧
        Changed s t id fun b => written b off data) (fun _ t => t = s) := by
  by_cases hlt : off < maxSize
  · obtain ⟨t,ht,hch⟩ := writeNode_ok h ha hst hne hlt (hroom hlt)
    exact Wp.of_ok ht ⟨rfl,hlt,hch⟩
  · exact .bind (.check (fun h' => absurd (of_decide_eq_true h') hlt) fun _ => rfl)

theorem truncateTo_changed (hn : n < 18446744073709551616) :
    Changed s (truncateTo s id n) id fun b => b.resize n := by
  by_cases hle : (s.nodes id).size ≤ n
  · have ht : truncateTo s id n = s.setNode id { s.nodes id with size := n } := by
      simp [truncateTo,hle,mapNode]
    rw [ht]
    have hself : (s.setNode id { s.nodes id with size := n }).nodes id = { s.nodes id with size := n } :=
      update_self _ _ _
    have hnode : ∀ j, j ≠ id → (s.setNode id { s.nodes id with size := n }).nodes j = s.nodes j :=
      fun j hj => update_of_ne hj _ _
    have hraw : ∀ j, MikuVfs.raw (s.setNode id { s.nodes id with size := n }) j = s.raw j := by
      intro j
      unfold MikuVfs.raw
      by_cases hj : j = id
      · subst hj
        rw [hself]
        rfl
      · rw [hnode j hj]
        rfl
    refine changed_of h ha hst (h.owned.congr rfl fun j hj => ?_) hself hnode (fun j _ _ => hraw j) rfl
      rfl hn ?_ rfl ?_
    · by_cases hji : j = id
      · subst hji
        rw [hself] at *
        exact ⟨hj,rfl⟩
      · rw [hnode j hji] at *
        exact ⟨hj,rfl⟩
    · intro i hi
      rw [hraw]
      exact h.clean id ha i (by omega)
    · intro i hi
      rw [hraw]
      simp [ByteFile.resize,if_pos hi,h.byte ha hst]
  · have hlt : n < (s.nodes id).size := Nat.not_le.mp hle
    let a : AddressSpace := fun k => if k < keepPages n then (s.nodes id).addrSpace k else none
    have hget : ∀ k, a.getPage k = if k < keepPages n then (s.nodes id).addrSpace.getPage k else none := by
      intro k
      unfold getPage
      by_cases hk : k < keepPages n
      · simp [a,hk]
      · simp [a,hk]
    obtain ⟨hown,hraw,hother⟩ := free_spec (n := { s.nodes id with size := n, addrSpace := a }) h.owned ha
      hget
    let u := { s with
      pageCache := ((s.nodes id).addrSpace.pagesFrom (keepPages n)).foldl PageCache.freePage s.pageCache
      }.setNode id { s.nodes id with size := n, addrSpace := a }
    have hself : u.nodes id = { s.nodes id with size := n, addrSpace := a } := update_self _ _ _
    have hnode : ∀ j, j ≠ id → u.nodes j = s.nodes j := fun j hj => update_of_ne hj _ _
    have hau : (u.nodes id).active = true := by
      rw [hself]
      exact ha
    obtain ⟨hown',hraw',hother'⟩ := zeroTail_spec (s := u) (n := n) hown hau
    have ht : truncateTo s id n = { u with pageCache := zeroTail u.pageCache (u.nodes id).addrSpace n } := by
      rw [hself]
      simp [truncateTo,hle,mapNode,u,setNode,a]
    rw [ht]
    have hpage : pageSize = 512 := rfl
    refine changed_of h ha hst hown' hself hnode
      (fun j hj haj => (hother' j hj (by rw [hnode j hj]; exact haj)).trans (hother j hj haj)) rfl rfl hn
      ?_ rfl ?_
    · intro i hi
      rw [hraw']
      split
      · rfl
      · rename_i hne
        rw [hraw,if_neg]
        unfold keepPages
        split
        · exact Nat.not_lt_zero _
        · rw [hpage] at *
          omega
    · intro i hi
      rw [hraw',if_neg,hraw,if_pos]
      · simp [ByteFile.resize,if_pos hi,h.byte ha hst]
      · unfold keepPages
        rw [if_neg (by omega),hpage]
        omega
      · rw [hpage]
        omega

theorem truncateFile_changed : Changed s (truncateFile s id) id fun _ => .empty := by
  obtain ⟨hown,hraw,hother⟩ := @free_spec _ _
    { s.nodes id with size := 0, addrSpace := AddressSpace.new } 0 h.owned ha (fun k => by
      unfold getPage AddressSpace.new
      simp)
  refine changed_of h ha hst hown (update_self _ _ _) (fun j hj => update_of_ne hj _ _)
    hother rfl rfl (by decide) (fun i _ => ?_) rfl fun i hi => absurd hi (Nat.not_lt_zero i)
  exact (hraw i).trans (if_neg (Nat.not_lt_zero _))

end Miku.Vfs
