import Miku.Proofs.ExtentTree

namespace Miku.Ext
open Lib List Inode Option

variable {v v' : Volume} {i i' : Inode} {is : List ExtentIdx} {buf : Bytes} {p : Nat}

/-- A leaf block with one more mapping: the last extent longer, or an entry behind it. -/
def LeafInserted (buf buf' : Bytes) (l p : Nat) : Prop :=
  extendsLast (extentsIn buf) l p = true ∧ buf' = growLast buf ∨
    le16 buf 2 < le16 buf 4 ∧ buf' = appendExtent buf l p

theorem extendsLast_spec (h : extendsLast es l p = true) : ∃ e, es.getLast? = some e ∧
    l = (e.block + e.actualLen) % 4294967296 ∧ p = (e.start + e.actualLen) % 4294967296 ∧
      e.actualLen < 32767 := by
  unfold extendsLast at h
  split at h
  · cases h
  · rename_i e he
    simp only [Bool.and_eq_true,beq_iff_eq,decide_eq_true_eq] at h
    exact ⟨e,he,h.1.1,h.1.2,h.2⟩

theorem updates_extend (h : extendsLast (xs ++ [e]) l p = true)
    (hend : e.block + e.actualLen < 4294967296) (hl : l + 1 < 4294967296)
    (hn : ∀ e' ∈ xs ++ [e], ¬ e'.Covers l) : Updates (xs ++ [e]) (xs ++ [e.longer]) l p := by
  obtain ⟨e',he,hle,hp,hlen⟩ := extendsLast_spec h
  rw [getLast?_append_of_ne_nil _ (cons_ne_nil _ _),getLast?_singleton] at he
  cases he
  exact updates_longer hl hlen (by rw [hle,Nat.mod_eq_of_lt hend]) hp
    fun a ha => hn a (mem_append_left _ ha)

theorem LeafInserted.updates (h : LeafInserted buf buf' l p) (hok : LeafOk v (extentsIn buf) lo hi)
    (hhi : hi ≤ maxBlocks) (hn : ∀ e ∈ extentsIn buf, ¬ e.Covers l) (hl : l + 1 < 4294967296)
    (hp : p < 4294967296) :
    le16 buf' 0 = le16 buf 0 ∧ Updates (extentsIn buf) (extentsIn buf') l p := by
  rcases h with ⟨hext,rfl⟩ | ⟨hroom,rfl⟩
  · refine ⟨growLast_header.magic,?_⟩
    obtain ⟨e,he,-,-,hlen⟩ := extendsLast_spec hext
    cases hc : le16 buf 2 with
    | zero => simp [extentsIn,blockHeader,hc] at he
    | succ n =>
      have hlast : e = extentIn buf n := by
        simp only [extentsIn,blockHeader,hc,range_succ,map_append,map_cons,map_nil,
          getLast?_concat,some.injEq] at he
        exact he.symm
      rw [hlast] at hlen
      obtain ⟨h1,h2⟩ := extentsIn_growLast hc hlen
      rw [h2]
      have hend := (hok.inside (extentIn buf n) (by rw [h1]; simp)).2
      rw [h1] at hext hn ⊢
      unfold maxBlocks at hhi
      exact updates_extend hext (by omega) hl hn
  · refine ⟨appendExtent_header.magic,?_⟩
    have := le16_lt (b := buf) (o := 4)
    rw [extentsIn_append (by omega) (by omega) hp]
    have hup : Updates (extentsIn buf ++ []) (extentsIn buf ++ [⟨l,1,0,p⟩]) l p :=
      updates_insert hl hp (by simpa using hn)
    rwa [append_nil] at hup

theorem loop_magic (h : insertExtentLoop ino l p fuel i v = .ok i' v') :
    i.extentHeader.magic = extMagic ∧ ∃ fuel', fuel = fuel' + 1 := by
  cases fuel with
  | zero => cases h
  | succ fuel =>
    refine ⟨?_,fuel,rfl⟩
    unfold insertExtentLoop at h
    split at h
    · cases h
    · rename_i hm
      exact not_not.mp hm

theorem loop_leaf (hd : i.extentHeader.depth = 0)
    (h : insertExtentLoop ino l p (fuel + 1) i v = .ok i' v') :
    extendsLast i.extents l p = true ∧ v' = v ∧ i' = i.setExtentLenAt (i.extentHeader.entries - 1)
        ((i.extentAt (i.extentHeader.entries - 1)).actualLen + 1) ∨
      i.extentHeader.entries < i.extentHeader.max ∧ v' = v ∧
        i' = i.insertExtentAt (insertPos i.extents l) l p ∨
      extendsLast i.extents l p = false ∧ i.extentHeader.max ≤ i.extentHeader.entries ∧
        ∃ nb v₁, allocBlock (v.groupOf ino) v = .ok nb v₁ ∧
          insertExtentLoop ino l p fuel (addBlocks v₁ (grownRoot i nb))
            (v₁.setBlock nb (grownLeaf v₁ i)) = .ok i' v' := by
  have hm := (loop_magic h).1
  simp only [insertExtentLoop,hm,hd,ne_eq,not_true_eq_false,↓reduceIte,ext4InsertExtentLeaf] at h
  split at h
  · rename_i hext
    cases h
    exact .inl ⟨hext,rfl,rfl⟩
  · rename_i hext
    split at h
    · rename_i hroom
      cases h
      exact .inr (.inl ⟨hroom,rfl,rfl⟩)
    · rename_i hroom
      refine .inr (.inr ⟨eq_false_of_ne_true hext,Nat.not_lt.mp hroom,?_⟩)
      unfold ext4GrowExtentTree at h
      cases ha : allocBlock (v.groupOf ino) v with
      | error e v₁ => simp [ha] at h
      | ok nb v₁ =>
        simp only [ha] at h
        exact ⟨nb,v₁,rfl,h⟩

theorem targetIdx_lt (is : List ExtentIdx) (x : Nat) (h : 0 < is.length) : targetIdx is x < is.length := by
  rcases routes_or_none is x with ⟨j,hr,-⟩ | ⟨-,ht⟩
  · exact (List.getElem?_eq_some_iff.mp hr.1).1
  · omega

theorem target_at {f : Nat → ExtentIdx} (h : 0 < n) :
    ((List.range n).map f)[targetIdx ((List.range n).map f) l]? =
      some (f (targetIdx ((List.range n).map f) l)) := by
  have := targetIdx_lt ((List.range n).map f) l (by simpa using h)
  rw [getElem?_map,getElem?_range (by simpa using this)]
  rfl

theorem indices_target (h : 0 < i.extentHeader.entries) :
    i.indices[targetIdx i.indices l]? = some (i.extentIdxAt (targetIdx i.indices l)) :=
  target_at h

theorem indicesIn_target (h : 0 < le16 buf 2) :
    (indicesIn buf)[targetIdx (indicesIn buf) l]? = some (idxIn buf (targetIdx (indicesIn buf) l)) :=
  target_at h

section

variable (hd : i.extentHeader.depth ≠ 0) (he : 0 < i.extentHeader.entries)
    (hj : i.indices[targetIdx i.indices l]? = some j) (hs : j.leaf < 4294967296)
    (hv : v.isValidBlock j.leaf = true)
include hd he hj hs hv

theorem loop_child (hcd : le16 (v.blocks j.leaf) 6 = 0)
    (h : insertExtentLoop ino l p (fuel + 1) i v = .ok i' v') :
    (∃ buf', LeafInserted (v.blocks j.leaf) buf' l p ∧ i' = i ∧ v' = v.setBlock j.leaf buf') ∨
      extendsLast (extentsIn (v.blocks j.leaf)) l p = false ∧
        le16 (v.blocks j.leaf) 4 ≤ le16 (v.blocks j.leaf) 2 ∧
        ∃ nb v₁, allocBlock (v.groupOf ino) v = .ok nb v₁ ∧ insertExtentLoop ino l p fuel
            (addBlocks v₁ (linkLeaf i (le32 (upperHalf v₁ (v.blocks j.leaf)) 12) nb))
            ((v₁.setBlock nb (upperHalf v₁ (v.blocks j.leaf))).setBlock j.leaf
              (lowerHalf (v.blocks j.leaf))) = .ok i' v' := by
  have hm := (loop_magic h).1
  rw [indices_target he] at hj
  cases hj
  simp only [insertExtentLoop,hm,hd,ne_eq,not_true_eq_false,↓reduceIte,ext4InsertExtentDeep,
    Nat.mod_eq_of_lt hs,Volume.readBlock_of_valid hv,hcd] at h
  split at h
  · cases h
  · unfold insertExtentChild at h
    split at h
    · rename_i hext
      cases h
      exact .inl ⟨_,.inl ⟨hext,rfl⟩,rfl,rfl⟩
    · rename_i hext
      split at h
      · rename_i hroom
        cases h
        exact .inl ⟨_,.inr ⟨hroom,rfl⟩,rfl,rfl⟩
      · rename_i hroom
        refine .inr ⟨eq_false_of_ne_true hext,Nat.not_lt.mp hroom,?_⟩
        unfold ext4SplitLeaf at h
        cases ha : allocBlock (v.groupOf ino) v with
        | error e v₁ => simp [ha] at h
        | ok nb v₁ =>
          simp only [ha] at h
          exact ⟨nb,v₁,rfl,h⟩

theorem loop_sub (hcd : le16 (v.blocks j.leaf) 6 ≠ 0) (hce : 0 < le16 (v.blocks j.leaf) 2)
    (hj₂ : (indicesIn (v.blocks j.leaf))[targetIdx (indicesIn (v.blocks j.leaf)) l]? = some j₂)
    (hs₂ : j₂.leaf < 4294967296) (h : insertExtentLoop ino l p (fuel + 1) i v = .ok i' v') :
    le16 (v.blocks j₂.leaf) 2 < le16 (v.blocks j₂.leaf) 4 ∧ i' = i ∧
      v' = v.setBlock j₂.leaf (appendExtent (v.blocks j₂.leaf) l p) := by
  have hm := (loop_magic h).1
  rw [indices_target he] at hj
  rw [indicesIn_target hce] at hj₂
  cases hj
  cases hj₂
  simp only [insertExtentLoop,hm,hd,ne_eq,not_true_eq_false,↓reduceIte,ext4InsertExtentDeep,
    Nat.mod_eq_of_lt hs,Volume.readBlock_of_valid hv,hcd,insertExtentSub,Nat.mod_eq_of_lt hs₂] at h
  split at h
  · cases h
  · split at h
    · cases h
    · rename_i buf hb
      unfold Volume.readBlock at hb
      split at hb
      · cases hb
        split at h
        · rename_i hroom
          cases h
          exact ⟨hroom,rfl,rfl⟩
        · cases h
      · cases hb

end

/-- The lookups in `i'` are those in `i`, with `l` at `p`. -/
def IsUpdate (v v' : Volume) (i i' : Inode) (l p : Nat) : Prop :=
  ∀ x < 4294967296, v'.getFileBlockExtent i' x = if x = l then .ok p else v.getFileBlockExtent i x

theorem LeafOk.head_le (h : LeafOk v es lo hi) (ha : a ∈ es.head?) (he : e ∈ es) :
    a.block ≤ e.block := by
  cases es with
  | nil => simp at ha
  | cons a' es =>
    cases ha
    rcases mem_cons.mp he with rfl | he
    · exact .refl
    · have := rel_of_pairwise_cons h.sorted he
      omega

theorem LeafOk.sublist (h : LeafOk v es lo hi) (hs : List.Sublist es' es) : LeafOk v es' lo hi :=
  ⟨h.sorted.sublist hs,fun e he => h.inside e (hs.subset he),fun e he => h.placed e (hs.subset he)⟩

theorem insertPos_le : insertPos es l ≤ es.length := by
  unfold insertPos
  cases h : es.findIdx? fun e => decide (l < e.block) with
  | none => exact .refl
  | some k => exact Nat.le_of_lt (findIdx?_eq_some_iff_getElem.mp h).1

theorem length_extents : i.extents.length = i.extentHeader.entries := by simp [extents]

theorem updates_setExtentLenAt (hok : LeafOk v i.extents 0 maxBlocks)
    (h4 : i.extentHeader.entries ≤ 4) (hl : l + 1 < 4294967296) (hn : ∀ e ∈ i.extents, ¬ e.Covers l)
    (hext : extendsLast i.extents l p = true) :
    Updates i.extents (i.setExtentLenAt (i.extentHeader.entries - 1)
      ((i.extentAt (i.extentHeader.entries - 1)).actualLen + 1)).extents l p := by
  obtain ⟨e,he,-,-,hlen⟩ := extendsLast_spec hext
  cases hc : i.extentHeader.entries with
  | zero => simp [extents,hc] at he
  | succ n =>
    have hlast : e = i.extentAt n := by
      simp only [extents,hc,range_succ,map_append,map_cons,map_nil,
        getLast?_concat,some.injEq] at he
      exact he.symm
    rw [hlast] at hlen
    obtain ⟨h1,h2⟩ := extents_setExtentLenAt hc (by omega) hlen
    rw [Nat.add_sub_cancel,h2]
    have hend := (hok.inside (i.extentAt n) (by rw [h1]; simp)).2
    rw [h1] at hext hn ⊢
    unfold maxBlocks at hend
    exact updates_extend hext (by omega) hl hn

theorem isUpdate_of_updates (hm : i.extentHeader.magic = extMagic) (hd : i.extentHeader.depth = 0)
    (hh : i'.extentHeader.magic = i.extentHeader.magic ∧ i'.extentHeader.depth = i.extentHeader.depth)
    (h : Updates i.extents i'.extents l p) : IsUpdate v v i i' l p := by
  intro x _
  rw [get_zero (hh.1.trans hm) (hh.2.trans hd),get_zero hm hd,h x]
  split <;> rfl

theorem insertExtentAt_header (h4 : i.extentHeader.entries < 4)
    (hpos : pos ≤ i.extentHeader.entries) :
    (i.insertExtentAt pos l p).extentHeader.magic = i.extentHeader.magic ∧
      (i.insertExtentAt pos l p).extentHeader.depth = i.extentHeader.depth := by
  obtain ⟨c,hn⟩ := Nat.exists_eq_add_of_le hpos
  have hh := (extentAt_foldl_shift pos c (by omega) i).1
  simp only [insertExtentAt,extentHeader_setExtentEntries,setExtentAtRaw,
    extentHeader_setEntry,shiftExtents]
  simp only [setExtentAtRaw] at hh
  rw [hn,Nat.add_sub_cancel_left,hh]
  exact ⟨rfl,rfl⟩

section

variable (hok : TreeOk v i) (hs : v.Sane) (hd : i.extentHeader.depth = 0) (hl : l + 1 < 4294967296)
    (hp : p < 4294967296)
include hok hs hd hl hp

/-- The entries of the leaf that the tree grows by, one round later. -/
theorem grown_round (hn : ∀ e ∈ i.extents, ¬ e.Covers l)
    (hleaf : LeafOk v i.extents 0 maxBlocks) (ha : Allocated v w nb)
    (h : insertExtentLoop ino l p (fuel + 1) (addBlocks w (grownRoot i nb))
      (w.setBlock nb (grownLeaf w i)) = .ok i' v') :
    ∃ es', Updates i.extents es' l p ∧ ∀ x, v'.getFileBlockExtent i' x =
      if (if 0 < i.extentHeader.entries then (i.extentAt 0).block else 0) ≤ x
        then .ok (searchLeaf es' x) else .ok 0 := by
  obtain ⟨hh,hind⟩ := grownRoot_spec (i := i) (b := nb) (by omega)
  have hbs := hs.blockSize
  have hmax := hok.max
  have hent := hok.entries
  have hroom : maxEntries w % 65536 = maxEntries w := by
    rw [maxEntries,ha.blockSize]
    exact Nat.mod_eq_of_lt (by omega)
  have hbig : 4 < maxEntries w := by
    rw [maxEntries,ha.blockSize]
    omega
  have hhead := blockHeader_grownLeaf w (i := i) (by omega) (by omega)
  have hmem := extentsIn_grownLeaf w (i := i) (by omega) (by omega)
    fun k _ => ⟨hok.words _,hok.words _,hok.words _⟩
  have hbuf : (w.setBlock nb (grownLeaf w i)).blocks nb = grownLeaf w i := Volume.blocks_setBlock_self
  simp only [blockHeader,ExtentHeader.mk.injEq,hroom] at hhead
  obtain ⟨hmag,hen,hmx,hdp⟩ := hhead
  obtain ⟨hpos,hlt⟩ := hs.free nb ha.free
  have hnb : nb < 4294967296 := Nat.lt_trans hlt hs.blocksCount
  have hvalid : (w.setBlock nb (grownLeaf w i)).isValidBlock nb = true := by
    rw [Volume.isValidBlock_setBlock,ha.isValidBlock,hs.valid ha.free]
  set first := if 0 < i.extentHeader.entries then (i.extentAt 0).block else 0 with hfirst
  have hleafnb : (⟨first,nb,0⟩ : ExtentIdx).leaf = nb := by simp [ExtentIdx.leaf]
  have htarget : targetIdx [(⟨first,nb,0⟩ : ExtentIdx)] l = 0 := by
    have := targetIdx_lt [(⟨first,nb,0⟩ : ExtentIdx)] l (by simp)
    simpa using this
  rcases loop_child (j := ⟨first,nb,0⟩) (by rw [extentHeader_addBlocks,hh]; simp)
      (by rw [extentHeader_addBlocks,hh]; simp) (by rw [indices_addBlocks,hind,htarget]; rfl)
      (by rw [hleafnb]; exact hnb) (by rw [hleafnb]; exact hvalid)
      (by rw [hleafnb,hbuf,hdp,hd]) h with ⟨buf',hins,rfl,rfl⟩ | ⟨-,hfull,-⟩
  · rw [hleafnb,hbuf] at hins
    rw [hleafnb]
    obtain ⟨hm',hup⟩ := hins.updates (hmem.symm ▸ hleaf) .refl (hmem.symm ▸ hn) hl hp
    rw [hmem] at hup
    refine ⟨extentsIn buf',hup,fun x => ?_⟩
    rw [get_succ (d := 0) (by rw [extentHeader_addBlocks,hh]; exact hok.magic)
      (by rw [extentHeader_addBlocks,hh,hd]),indices_addBlocks,hind]
    by_cases hx : first ≤ x
    · have hr : RoutesTo [(⟨first,nb,0⟩ : ExtentIdx)] x 0 ⟨first,nb,0⟩ :=
        ⟨rfl,hx,fun k' j' hk hj' => by rw [getElem?_eq_none hk] at hj'; cases hj'⟩
      rw [if_pos hx,hr.lookIn (by rw [hleafnb]; exact hpos) (by rw [hleafnb]; exact hnb),hleafnb,
        search_zero (by simpa using hvalid) (by simp [hm',hmag])]
      simp
    · rw [if_neg hx,lookIn_none (by simpa using hx)]
  · rw [hleafnb,hbuf,hen,hmx] at hfull
    omega

/-- At depth 0 the insertion fails to be an update where a full root grows and `l` lies
before its first extent. -/
theorem isUpdate_leaf (hp0 : 0 < p) (hu : v.getFileBlockExtent i l = .ok 0)
    (h : insertExtentLoop ino l p (fuel + 2) i v = .ok i' v') : IsUpdate v v' i i' l p ↔
      i.extentHeader.entries < i.extentHeader.max ∨ ∀ e ∈ i.extents.head?, e.block ≤ l := by
  have hleaf : LeafOk v i.extents 0 maxBlocks := by
    have := hok.tree
    rwa [hd] at this
  rw [get_zero hok.magic hd] at hu
  have hn := hleaf.not_covers .refl hs.blocksCount (Except.ok.inj hu)
  have hent := hok.entries
  have hmax := hok.max
  rcases loop_leaf hd h with ⟨hext,rfl,rfl⟩ | ⟨hroom,rfl,rfl⟩ | ⟨-,hfull,nb,w,ha,h⟩
  · refine iff_of_true (isUpdate_of_updates hok.magic hd ?_
      (updates_setExtentLenAt hleaf (by omega) hl hn hext)) (.inr fun a ha => ?_)
    · rw [extentHeader_setExtentLenAt]
      exact ⟨rfl,rfl⟩
    · obtain ⟨e,he,hle,-,-⟩ := extendsLast_spec hext
      have hmem := mem_of_getLast? he
      have h1 := hleaf.head_le ha hmem
      have h2 := (hleaf.inside e hmem).2
      unfold maxBlocks at h2
      rw [Nat.mod_eq_of_lt (by omega)] at hle
      omega
  · have hpos : insertPos i.extents l ≤ i.extentHeader.entries := length_extents (i := i) ▸ insertPos_le
    obtain ⟨xs,ys,h1,h2⟩ := extents_insertExtentAt (l := l) (p := p) (by omega) hpos
    refine iff_of_true (isUpdate_of_updates hok.magic hd (insertExtentAt_header (by omega) hpos) ?_)
      (.inl hroom)
    rw [h2,h1]
    exact updates_insert hl hp (h1 ▸ hn)
  · obtain ⟨es',hup,hget⟩ := grown_round hok hs hd hl hp hn hleaf (allocated_of_ok ha) h
    have hhead : ∀ x, (if 0 < i.extentHeader.entries then (i.extentAt 0).block else 0) ≤ x ↔
        ∀ e ∈ i.extents.head?, e.block ≤ x := fun x => by
      cases hc : i.extentHeader.entries with
      | zero => simp [extents,hc]
      | succ n => simp [extents,hc,range_succ_eq_map]
    simp only [hhead] at hget
    constructor
    · intro hupd
      by_contra hc
      have hx := hupd l (by omega)
      rw [hget,if_pos rfl,if_neg fun hle => hc (.inr hle)] at hx
      exact absurd (Except.ok.inj hx) (Nat.ne_of_lt hp0)
    · rintro (hroom | hle)
      · omega
      · intro x _
        rw [hget,get_zero hok.magic hd]
        by_cases hx : ∀ e ∈ i.extents.head?, e.block ≤ x
        · rw [if_pos hx,hup x]
          split <;> rfl
        · have hxl : x ≠ l := by
            rintro rfl
            exact hx hle
          rw [if_neg hx,if_neg hxl,
            searchLeaf_zero fun e he hc => hx fun a ha => Nat.le_trans (hleaf.head_le ha he) hc.1]

end

/-- The entries of `is` point to different leaves. -/
structure Leaves (v : Volume) (is : List ExtentIdx) : Prop where
  small : ∀ j ∈ is, 0 < j.leaf ∧ j.leaf < 4294967296
  valid : ∀ j ∈ is, v.isValidBlock j.leaf = true
  magic : ∀ j ∈ is, le16 (v.blocks j.leaf) 0 = extMagic
  distinct : ∀ (k k' : Nat) (j j' : ExtentIdx), is[k]? = some j → is[k']? = some j' → k ≠ k' → j.leaf ≠ j'.leaf

variable {j' : ExtentIdx}

theorem Leaves.lookIn (h : Leaves v is) (hr : RoutesTo is x k j) :
    lookIn v is 0 x = .ok (searchLeaf (extentsIn (v.blocks j.leaf)) x) := by
  obtain ⟨h0,hs⟩ := h.small j hr.mem
  rw [hr.lookIn h0 hs,search_zero (h.valid j hr.mem) (h.magic j hr.mem)]

theorem Leaves.set (h : Leaves v is) (hr : RoutesTo is l k j) (hb : j.leaf = b)
    (hm : le16 buf' 0 = extMagic) (hup : Updates (extentsIn (v.blocks b)) (extentsIn buf') l p) (x : Nat) :
    Ext.lookIn (v.setBlock b buf') is 0 x = if x = l then .ok p else Ext.lookIn v is 0 x := by
  subst hb
  refine lookIn_set h.small hr (fun x => ?_) (fun k' j' hj' hk x => ?_) x
  · rw [search_zero (h.valid j hr.mem) (h.magic j hr.mem),
      search_zero (v := v.setBlock j.leaf buf') (h.valid j hr.mem) (by simp [hm]),
      Volume.blocks_setBlock_self,hup x]
    split <;> rfl
  · have hmem := mem_of_getElem? hj'
    have hne := Volume.blocks_setBlock_of_ne (v := v) (d := buf') (h.distinct _ _ _ _ hj' hr.1 hk)
    rw [search_zero (h.valid j' hmem) (h.magic j' hmem),
      search_zero (v := v.setBlock j.leaf buf') (h.valid j' hmem) (by rw [hne,h.magic j' hmem]),hne]

theorem IndexOk.routes (h : IndexOk P is lo hi) (hj : is[k]? = some j)
    (h1 : j.block ≤ x) (h2 : x < keyAfter is k hi) : RoutesTo is x k j := by
  refine ⟨hj,h1,fun k' j' hk hj' => Nat.lt_of_lt_of_le h2 ?_⟩
  obtain ⟨hlt,rfl⟩ := List.getElem?_eq_some_iff.mp hj'
  have hkey : keyAfter is k hi = is[k + 1].block := by
    rw [keyAfter,getElem?_eq_getElem (by omega)]
    rfl
  rw [hkey]
  rcases Nat.lt_or_ge (k + 1) k' with hlt' | hge
  · exact Nat.le_of_lt (pairwise_iff_getElem.mp h.sorted _ _ _ _ hlt')
  · have : k + 1 = k' := by omega
    subst this
    exact .refl

theorem IndexOk.keyAfter_le (h : IndexOk P is lo hi) : keyAfter is k hi ≤ hi := by
  unfold keyAfter
  cases hj : is[k + 1]? with
  | none => exact .refl
  | some j => exact Nat.le_of_lt (h.inside j (mem_of_getElem? hj)).2

/-- The first key decides whether there is an entry for `x`. -/
theorem IndexOk.head_le (h : IndexOk P is lo hi) :
    (∀ j ∈ is.head?, j.block ≤ x) ↔ is = [] ∨ ∃ j, RoutesTo is x (targetIdx is x) j := by
  cases is with
  | nil => simp
  | cons a is =>
    constructor
    · intro hle
      rcases routes_or_none (a :: is) x with ⟨j,hr,-⟩ | ⟨hall,-⟩
      · exact .inr ⟨j,hr⟩
      · exact absurd (hle a rfl) (Nat.not_le.mpr (hall a mem_cons_self))
    · rintro (hnil | ⟨j,hr⟩)
      · cases hnil
      · rintro b ⟨⟩
        refine Nat.le_trans ?_ hr.2.1
        rcases mem_cons.mp hr.mem with rfl | hj
        · exact .refl
        · exact Nat.le_of_lt (rel_of_pairwise_cons h.sorted hj)

theorem TreeOk.index (hok : TreeOk v i) (hd : i.extentHeader.depth = d + 1) :
    0 < i.extentHeader.entries ∧ IndexOk (NodeOk v d) i.indices 0 maxBlocks := by
  have := hok.tree
  rwa [hd] at this

theorem TreeOk.nodes_eq (hd : i.extentHeader.depth = d + 1) :
    treeNodes v i = i.indices.flatMap fun j => nodes v d j.leaf := by
  rw [treeNodes,hd]

theorem IndexOk.leaves (h : IndexOk (NodeOk v 0) is lo hi)
    (hnd : (is.flatMap fun j => nodes v 0 j.leaf).Nodup) : Leaves v is := by
  have hnode : ∀ j ∈ is, HeaderOk v j.leaf 0 := by
    intro j hj
    obtain ⟨k,hk⟩ := getElem?_of_mem hj
    exact (h.child k j hk).header
  refine ⟨h.leaf,fun j hj => (hnode j hj).valid,fun j hj => (hnode j hj).magic,?_⟩
  intro k k' j j' hj hj' hk heq
  exact nodes_disjoint hnd hj hj' hk j.leaf mem_nodes (heq ▸ mem_nodes)

theorem TreeOk.leaves (hok : TreeOk v i) (hd : i.extentHeader.depth = 1) : Leaves v i.indices :=
  (hok.index hd).2.leaves (TreeOk.nodes_eq (v := v) hd ▸ hok.nodup)

theorem TreeOk.not_free (hok : TreeOk v i) (hd : i.extentHeader.depth = d + 1)
    (hj : j ∈ i.indices) : ¬ v.Free j.leaf :=
  hok.used _ (TreeOk.nodes_eq (v := v) hd ▸ mem_flatMap.mpr ⟨j,hj,mem_nodes⟩)

/-- The leaf that an unmapped block goes to has no extent for it, also where no entry is
for it and the first leaf is taken. -/
theorem child_not_covers (h : IndexOk (NodeOk v 0) is lo hi) (hhi : hi ≤ maxBlocks)
    (hlv : Leaves v is) (hv : v.blocksCount < 4294967296) (hj : is[targetIdx is l]? = some j)
    (hu : lookIn v is 0 l = .ok 0) : ∀ e ∈ extentsIn (v.blocks j.leaf), ¬ e.Covers l := by
  have hc := h.child _ j hj
  rcases routes_or_none is l with ⟨j',hr,-⟩ | ⟨hall,-⟩
  · obtain rfl : j' = j := some.inj (hr.1.symm.trans hj)
    rw [hlv.lookIn hr] at hu
    exact hc.2.not_covers (Nat.le_trans h.keyAfter_le hhi) hv (Except.ok.inj hu)
  · intro e he hcov
    have h1 := hall j (mem_of_getElem? hj)
    have h2 := (hc.2.inside e he).1
    have h3 := hcov.1
    omega

theorem not_isUpdate_of_zero (hp0 : 0 < p) (hl : l + 1 < 4294967296)
    (h : v'.getFileBlockExtent i' l = .ok 0) : ¬ IsUpdate v v' i i' l p := by
  intro hupd
  have := hupd l (by omega)
  rw [h,if_pos rfl] at this
  exact absurd (Except.ok.inj this) (Nat.ne_of_lt hp0)

theorem isUpdate_child (hok : TreeOk v i) (hs : v.Sane) (hd : i.extentHeader.depth = 1)
    (hl : l + 1 < 4294967296) (hp : p < 4294967296) (hp0 : 0 < p)
    (hu : v.getFileBlockExtent i l = .ok 0) (hj : i.indices[targetIdx i.indices l]? = some j)
    (hins : LeafInserted (v.blocks j.leaf) buf' l p) :
    IsUpdate v (v.setBlock j.leaf buf') i i l p ↔ ∀ j ∈ i.indices.head?, j.block ≤ l := by
  have hi := (hok.index hd).2
  have hlv := hok.leaves hd
  rw [get_succ hok.magic hd] at hu
  rw [hi.head_le]
  rcases routes_or_none i.indices l with ⟨j',hr,-⟩ | ⟨hall,-⟩
  · obtain rfl : j' = j := some.inj (hr.1.symm.trans hj)
    refine iff_of_true (fun x _ => ?_) (.inr ⟨j',hr⟩)
    have hc := hi.child _ j' hj
    obtain ⟨hm,hup⟩ := hins.updates hc.2 hi.keyAfter_le
      (child_not_covers hi .refl hlv hs.blocksCount hj hu) hl hp
    rw [get_succ hok.magic hd,get_succ hok.magic hd]
    exact hlv.set hr rfl (hm.trans hc.1.magic) hup x
  · refine iff_of_false (not_isUpdate_of_zero hp0 hl ?_) ?_
    · rw [get_succ hok.magic hd,lookIn_none hall]
    · rintro (hnil | ⟨j',hr⟩)
      · simp [hnil] at hj
      · exact absurd hr.2.1 (Nat.not_le.mpr (hall j' hr.mem))

end Miku.Ext
