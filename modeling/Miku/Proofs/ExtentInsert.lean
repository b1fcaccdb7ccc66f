import Miku.Proofs.ExtentMap

namespace Miku.Ext
open Lib List Volume Option

variable {v v' w : Volume} {i i' : Inode} {is : List ExtentIdx} {j : ExtentIdx} {buf : Bytes}
    {ino c d k p : Nat}

/-- The volume after block `c` was split, with the upper half in block `nb`. -/
def splitVolume (w : Volume) (nb c : Nat) (buf : Bytes) : Volume :=
  (w.setBlock nb (upperHalf w buf)).setBlock c (lowerHalf buf)

theorem splitVolume_child : (splitVolume w nb c buf).blocks c = lowerHalf buf :=
  blocks_setBlock_self

theorem splitVolume_new (h : nb ≠ c) : (splitVolume w nb c buf).blocks nb = upperHalf w buf := by
  rw [splitVolume,blocks_setBlock_of_ne h,blocks_setBlock_self]

theorem splitVolume_other (h : b ≠ nb) (h' : b ≠ c) : (splitVolume w nb c buf).blocks b = w.blocks b := by
  rw [splitVolume,blocks_setBlock_of_ne h',blocks_setBlock_of_ne h]

/-- The key of the new leaf is that of the first extent in the upper half. -/
theorem split_key (w : Volume) (h : 0 < le16 buf 2) : ∃ e es,
    (extentsIn buf).drop (le16 buf 2 / 2) = e :: es ∧ e.block = le32 (upperHalf w buf) 12 := by
  have hn := extentsIn_upperHalf (b := buf) w
  have hh := congrArg ExtentHeader.entries (blockHeader_upperHalf (b := buf) w)
  obtain ⟨n,hc⟩ : ∃ n, le16 buf 2 - le16 buf 2 / 2 = n + 1 :=
    Nat.exists_eq_succ_of_ne_zero (by omega)
  rw [hc] at hh
  refine ⟨extentIn (upperHalf w buf) 0,((List.range n).map Nat.succ).map (extentIn (upperHalf w buf)),?_,
    rfl⟩
  rw [← hn,extentsIn,hh,range_succ_eq_map,map_cons]

theorem routesTo_last (h : j.block ≤ l) : RoutesTo (is ++ [j]) l is.length j := by
  refine ⟨by simp,h,fun k' j' hk hj' => ?_⟩
  rw [getElem?_eq_none (by simp; omega)] at hj'
  cases hj'

theorem leaf_new : (⟨l,nb,0⟩ : ExtentIdx).leaf = nb := by
  simp [ExtentIdx.leaf]

section Split

variable (hok : TreeOk v i) (hs : v.Sane) (hd : i.extentHeader.depth = 1) (ha : Allocated v w nb)
  (hj : i.indices[k]? = some j)

include hok hd ha in
theorem new_ne_leaf (hj' : j' ∈ i.indices) : j'.leaf ≠ nb :=
  fun h => hok.not_free hd hj' (h ▸ ha.free)

include hok hd ha hj in
theorem leaves_split : Leaves (splitVolume w nb j.leaf (v.blocks j.leaf)) i.indices := by
  have hlv := hok.leaves hd
  refine ⟨hlv.small,fun j' hj' => ?_,fun j' hj' => ?_,hlv.distinct⟩
  · exact ha.isValidBlock.trans (hlv.valid j' hj')
  · by_cases h : j'.leaf = j.leaf
    · rw [h,splitVolume_child,lowerHalf,(sameHeader_put (.inr ⟨rfl,rfl⟩)).magic]
      exact hlv.magic j (mem_of_getElem? hj)
    · rw [splitVolume_other (new_ne_leaf hok hd ha hj') h,ha.blocks]
      exact hlv.magic j' hj'

include hok hs hd ha hj in
theorem leaves_split_link (a : Nat) :
    Leaves (splitVolume w nb j.leaf (v.blocks j.leaf)) (i.indices ++ [⟨a,nb,0⟩]) := by
  have hlv := leaves_split hok hd ha hj
  obtain ⟨hpos,hlt⟩ := hs.free nb ha.free
  have hcases : ∀ j' ∈ i.indices ++ [(⟨a,nb,0⟩ : ExtentIdx)], j' ∈ i.indices ∨ j' = ⟨a,nb,0⟩ := by simp
  refine ⟨?_,?_,?_,?_⟩
  · intro j' hj'
    rcases hcases j' hj' with h | rfl
    · exact hlv.small j' h
    · have := hs.blocksCount
      rw [leaf_new]
      omega
  · intro j' hj'
    rcases hcases j' hj' with h | rfl
    · exact hlv.valid j' h
    · rw [leaf_new]
      exact ha.isValidBlock.trans (hs.valid ha.free)
  · intro j' hj'
    rcases hcases j' hj' with h | rfl
    · exact hlv.magic j' h
    · rw [leaf_new,splitVolume_new (new_ne_leaf hok hd ha (mem_of_getElem? hj)).symm]
      exact congrArg ExtentHeader.magic (blockHeader_upperHalf w)
  · have hnew : ∀ (m m' : Nat) (j₁ j₂ : ExtentIdx), m < i.indices.length → i.indices.length ≤ m' →
        (i.indices ++ [(⟨a,nb,0⟩ : ExtentIdx)])[m]? = some j₁ →
        (i.indices ++ [(⟨a,nb,0⟩ : ExtentIdx)])[m']? = some j₂ → j₁.leaf ≠ j₂.leaf := by
      intro m m' j₁ j₂ hm hm' h₁ h₂
      rw [getElem?_append_left hm] at h₁
      rw [getElem?_append_right hm'] at h₂
      have := mem_singleton.mp (mem_of_getElem? h₂)
      rw [this,leaf_new]
      exact new_ne_leaf hok hd ha (mem_of_getElem? h₁)
    intro m m' j₁ j₂ h₁ h₂ hne
    rcases Nat.lt_or_ge m i.indices.length with hm | hm
    · rcases Nat.lt_or_ge m' i.indices.length with hm' | hm'
      · rw [getElem?_append_left hm] at h₁
        rw [getElem?_append_left hm'] at h₂
        exact hlv.distinct m m' j₁ j₂ h₁ h₂ hne
      · exact hnew m m' j₁ j₂ hm hm' h₁ h₂
    · rcases Nat.lt_or_ge m' i.indices.length with hm' | hm'
      · exact (hnew m' m j₂ j₁ hm' hm h₂ h₁).symm
      · have h1 := (List.getElem?_eq_some_iff.mp h₁).1
        have h2 := (List.getElem?_eq_some_iff.mp h₂).1
        rw [length_append,length_singleton] at h1 h2
        omega

def splitRoot (w : Volume) (i : Inode) (nb : Nat) (buf : Bytes) : Inode :=
  addBlocks w (linkLeaf i (le32 (upperHalf w buf) 12) nb)

theorem splitRoot_spec (hok : TreeOk v i) (w : Volume) (nb : Nat) (buf : Bytes) :
    (splitRoot w i nb buf).extentHeader.magic = extMagic ∧
      (splitRoot w i nb buf).extentHeader.depth = i.extentHeader.depth ∧
      (splitRoot w i nb buf).indices = if i.extentHeader.entries < i.extentHeader.max
        then i.indices ++ [⟨le32 (upperHalf w buf) 12,nb,0⟩] else i.indices := by
  obtain ⟨h1,h2,h3⟩ := linkLeaf_spec (i := i) (a := le32 (upperHalf w buf) 12) (b := nb) hok.max
  exact ⟨h1.trans hok.magic,h2,h3⟩

/-- The halves of a leaf after the next round: the entry is in the upper one if the lookup
of the root leads there. -/
def HalfInserted (v w v' : Volume) (i : Inode) (j : ExtentIdx) (nb l p : Nat) (buf' : Bytes) : Prop :=
  i.extentHeader.entries < i.extentHeader.max ∧ le32 (upperHalf w (v.blocks j.leaf)) 12 ≤ l ∧
      LeafInserted (upperHalf w (v.blocks j.leaf)) buf' l p ∧
      v' = (splitVolume w nb j.leaf (v.blocks j.leaf)).setBlock nb buf' ∨
    ¬ (i.extentHeader.entries < i.extentHeader.max ∧ le32 (upperHalf w (v.blocks j.leaf)) 12 ≤ l) ∧
      LeafInserted (lowerHalf (v.blocks j.leaf)) buf' l p ∧
      v' = (splitVolume w nb j.leaf (v.blocks j.leaf)).setBlock j.leaf buf'

include hok hs hd ha in
theorem split_round (hj : i.indices[targetIdx i.indices l]? = some j)
    (hfull : le16 (v.blocks j.leaf) 4 ≤ le16 (v.blocks j.leaf) 2)
    (h : insertExtentLoop ino l p (fuel + 1) (splitRoot w i nb (v.blocks j.leaf))
      (splitVolume w nb j.leaf (v.blocks j.leaf)) = .ok i' v') :
    i' = splitRoot w i nb (v.blocks j.leaf) ∧ ∃ buf', HalfInserted v w v' i j nb l p buf' := by
  obtain ⟨hm,hdp,hind⟩ := splitRoot_spec hok w nb (v.blocks j.leaf)
  have hjm := mem_of_getElem? hj
  have hne := new_ne_leaf hok hd ha hjm
  have hhead : HeaderOk v j.leaf 0 := ((hok.index hd).2.child _ j hj).header
  have hent := hhead.entries
  have hmax := hhead.max
  have hlt : targetIdx i.indices l < i.indices.length := (List.getElem?_eq_some_iff.mp hj).1
  have hbs := hs.blockSize
  have hpos : 0 < (splitRoot w i nb (v.blocks j.leaf)).extentHeader.entries := by
    have hlen : (splitRoot w i nb (v.blocks j.leaf)).indices.length =
        (splitRoot w i nb (v.blocks j.leaf)).extentHeader.entries := by simp [Inode.indices]
    rw [← hlen,hind]
    split
    · simp
    · omega
  have hd' : (splitRoot w i nb (v.blocks j.leaf)).extentHeader.depth ≠ 0 := by omega
  by_cases hup : i.extentHeader.entries < i.extentHeader.max ∧
      le32 (upperHalf w (v.blocks j.leaf)) 12 ≤ l
  · rw [if_pos hup.1] at hind
    have hl := leaves_split_link hok hs hd ha hj (le32 (upperHalf w (v.blocks j.leaf)) 12)
    have hmem : (⟨le32 (upperHalf w (v.blocks j.leaf)) 12,nb,0⟩ : ExtentIdx) ∈
        i.indices ++ [⟨le32 (upperHalf w (v.blocks j.leaf)) 12,nb,0⟩] := by simp
    have hU := blockHeader_upperHalf (b := v.blocks j.leaf) w
    simp only [blockHeader,ExtentHeader.mk.injEq] at hU
    obtain ⟨-,h2,h4,h6⟩ := hU
    rcases loop_child hd' hpos
        (by rw [hind,targetIdx_append,if_pos hup.2,getElem?_append_right .refl,Nat.sub_self]
            rfl)
        (hl.small _ hmem).2 (hl.valid _ hmem) (by rw [leaf_new,splitVolume_new hne.symm,h6]) h with
      ⟨buf',hins,hi',hv'⟩ | ⟨-,hf,-⟩
    · rw [leaf_new] at hins hv'
      rw [splitVolume_new hne.symm] at hins
      exact ⟨hi',buf',.inl ⟨hup.1,hup.2,hins,hv'⟩⟩
    · rw [leaf_new,splitVolume_new hne.symm,h2,h4,maxEntries,ha.blockSize,Nat.mod_eq_of_lt (by omega)] at hf
      omega
  · have hl := leaves_split hok hd ha hj
    have htarget : (splitRoot w i nb (v.blocks j.leaf)).indices[targetIdx
        (splitRoot w i nb (v.blocks j.leaf)).indices l]? = some j := by
      rw [hind]
      split
      · rename_i hr
        rw [targetIdx_append,if_neg fun h => hup ⟨hr,h⟩,getElem?_append_left hlt,hj]
      · exact hj
    have h6 : le16 (lowerHalf (v.blocks j.leaf)) 6 = 0 := by
      rw [lowerHalf,(sameHeader_put (.inr ⟨rfl,rfl⟩)).depth,hhead.depth]
    rcases loop_child hd' hpos htarget (hl.small j hjm).2 (hl.valid j hjm)
        (by rw [splitVolume_child,h6]) h with ⟨buf',hins,hi',hv'⟩ | ⟨-,hf,-⟩
    · rw [splitVolume_child] at hins
      exact ⟨hi',buf',.inr ⟨hup,hins,hv'⟩⟩
    · have hlow := le16_lt (b := v.blocks j.leaf) (o := 2)
      rw [splitVolume_child,lowerHalf,(sameHeader_put (.inr ⟨rfl,rfl⟩)).max,le16_put_self,
        Nat.mod_eq_of_lt (by omega)] at hf
      omega

include hok hs hd ha hj in
theorem lookIn_split (hlast : k + 1 = i.indices.length) (x : Nat) :
    lookIn (splitVolume w nb j.leaf (v.blocks j.leaf))
      (i.indices ++ [⟨le32 (upperHalf w (v.blocks j.leaf)) 12,nb,0⟩]) 0 x = lookIn v i.indices 0 x := by
  have hi := (hok.index hd).2
  have hlv := hok.leaves hd
  have hc := hi.child k j hj
  have hhi := hi.keyAfter_le (k := k)
  have hl := leaves_split_link hok hs hd ha hj (le32 (upperHalf w (v.blocks j.leaf)) 12)
  obtain ⟨a,rest,hdrop,hkey⟩ := split_key w hc.1.entries.1
  have hsplit : extentsIn (v.blocks j.leaf) =
      (extentsIn (v.blocks j.leaf)).take (le16 (v.blocks j.leaf) 2 / 2) ++ a :: rest := by
    rw [← hdrop,take_append_drop]
  have hsorted := pairwise_append.mp (hsplit ▸ hc.2.sorted)
  have hain : a ∈ extentsIn (v.blocks j.leaf) := by
    rw [hsplit]
    simp
  have hajk := (hc.2.inside a hain).1
  by_cases hx : le32 (upperHalf w (v.blocks j.leaf)) 12 ≤ x
  · have hr' : RoutesTo i.indices x k j := by
      refine ⟨hj,by omega,fun k' j' hk hj' => ?_⟩
      rw [getElem?_eq_none (by omega)] at hj'
      cases hj'
    rw [hl.lookIn (routesTo_last hx),hlv.lookIn hr',leaf_new,
      splitVolume_new (new_ne_leaf hok hd ha (mem_of_getElem? hj)).symm,extentsIn_upperHalf,hdrop]
    rw [hsplit,searchLeaf_append_left fun e he hcov => ?_]
    have h1 := hsorted.2.2 e he a mem_cons_self
    have h2 := ((hc.2.covers hhi (mem_of_mem_take he)).mp hcov).2
    omega
  · have hindex : searchIndex (i.indices ++ [⟨le32 (upperHalf w (v.blocks j.leaf)) 12,nb,0⟩]) x =
        searchIndex i.indices x := by rw [searchIndex_append,if_neg hx]
    have hsame : lookIn (splitVolume w nb j.leaf (v.blocks j.leaf))
        (i.indices ++ [⟨le32 (upperHalf w (v.blocks j.leaf)) 12,nb,0⟩]) 0 x =
          lookIn (splitVolume w nb j.leaf (v.blocks j.leaf)) i.indices 0 x := by
      rw [lookIn,hindex,lookIn]
    rw [hsame]
    have hl' := leaves_split hok hd ha hj
    rcases routes_or_none i.indices x with ⟨j',hr,-⟩ | ⟨hall,-⟩
    · rw [hl'.lookIn hr,hlv.lookIn hr]
      by_cases hk : targetIdx i.indices x = k
      · obtain rfl : j' = j := some.inj (hr.1.symm.trans (hk ▸ hj))
        have hupper : ∀ e ∈ a :: rest, ¬ e.Covers x := by
          intro e he hcov
          have h1 : a.block ≤ e.block := by
            rcases mem_cons.mp he with rfl | he
            · exact .refl
            · have := rel_of_pairwise_cons hsorted.2.1 he
              omega
          have h2 := hcov.1
          omega
        have hlow : searchLeaf ((extentsIn (v.blocks j'.leaf)).take (le16 (v.blocks j'.leaf) 2 / 2) ++
            a :: rest) x = searchLeaf ((extentsIn (v.blocks j'.leaf)).take
              (le16 (v.blocks j'.leaf) 2 / 2)) x := searchLeaf_append_right hupper
        rw [← hsplit] at hlow
        rw [splitVolume_child,extentsIn_lowerHalf,hlow]
      · rw [splitVolume_other (new_ne_leaf hok hd ha hr.mem) (hlv.distinct _ _ _ _ hr.1 hj hk),ha.blocks]
    · rw [lookIn_none hall,lookIn_none hall]

end Split

theorem split_before (hok : TreeOk v i) (hd : i.extentHeader.depth = 1) (hj : i.indices[k]? = some j)
    (hroot : i.extentHeader.entries < i.extentHeader.max) (hall : ∀ j ∈ i.indices, l < j.block) :
    v'.getFileBlockExtent (splitRoot w i nb (v.blocks j.leaf)) l = .ok 0 := by
  have hc := (hok.index hd).2.child _ j hj
  obtain ⟨hm,hdp,hind⟩ := splitRoot_spec hok w nb (v.blocks j.leaf)
  rw [if_pos hroot] at hind
  obtain ⟨a,rest,hdrop,hkey⟩ := split_key w hc.1.entries.1
  have hle := (hc.2.inside a (mem_of_mem_drop (hdrop ▸ mem_cons_self))).1
  have hlt := hall j (mem_of_getElem? hj)
  rw [get_succ hm (hdp.trans hd),hind,lookIn_none]
  intro j' hj'
  rcases mem_append.mp hj' with h | h
  · exact hall j' h
  · rw [mem_singleton.mp h]
    show l < le32 (upperHalf w (v.blocks j.leaf)) 12
    omega

section AfterSplit

variable (hok : TreeOk v i) (hs : v.Sane) (hd : i.extentHeader.depth = 1) (hl : l + 1 < 4294967296)
  (hp : p < 4294967296) (ha : Allocated v w nb) (hj : i.indices[targetIdx i.indices l]? = some j)
  (hn : ∀ e ∈ extentsIn (v.blocks j.leaf), ¬ e.Covers l)

include hok hd hl hp hj hn

theorem updates_upper (h : LeafInserted (upperHalf w (v.blocks j.leaf)) buf' l p) :
    le16 buf' 0 = extMagic ∧ Updates ((extentsIn (v.blocks j.leaf)).drop (le16 (v.blocks j.leaf) 2 / 2))
      (extentsIn buf') l p := by
  have hi := (hok.index hd).2
  have hc := hi.child _ j hj
  have hsub := drop_sublist (le16 (v.blocks j.leaf) 2 / 2) (extentsIn (v.blocks j.leaf))
  have hU := extentsIn_upperHalf (b := v.blocks j.leaf) w
  obtain ⟨hm,hup⟩ := h.updates (v := v) (by rw [hU]; exact hc.2.sublist hsub) hi.keyAfter_le
    (by rw [hU]; exact fun e he => hn e (hsub.subset he)) hl hp
  exact ⟨hm.trans (congrArg ExtentHeader.magic (blockHeader_upperHalf w)),hU ▸ hup⟩

theorem updates_lower (h : LeafInserted (lowerHalf (v.blocks j.leaf)) buf' l p) :
    le16 buf' 0 = extMagic ∧
      Updates ((extentsIn (v.blocks j.leaf)).take (le16 (v.blocks j.leaf) 2 / 2)) (extentsIn buf') l p := by
  have hi := (hok.index hd).2
  have hc := hi.child _ j hj
  have hsub := take_sublist (le16 (v.blocks j.leaf) 2 / 2) (extentsIn (v.blocks j.leaf))
  have hL := extentsIn_lowerHalf (b := v.blocks j.leaf)
  obtain ⟨hm,hup⟩ := h.updates (v := v) (by rw [hL]; exact hc.2.sublist hsub) hi.keyAfter_le
    (by rw [hL]; exact fun e he => hn e (hsub.subset he)) hl hp
  refine ⟨hm.trans ?_,hL ▸ hup⟩
  rw [lowerHalf,(sameHeader_put (.inr ⟨rfl,rfl⟩)).magic,hc.1.magic]

include hs ha

theorem split_unlinked (hroot : ¬ i.extentHeader.entries < i.extentHeader.max)
    (hins : LeafInserted (lowerHalf (v.blocks j.leaf)) buf' l p) :
    ¬ IsUpdate v ((splitVolume w nb j.leaf (v.blocks j.leaf)).setBlock j.leaf buf') i
      (splitRoot w i nb (v.blocks j.leaf)) l p := by
  have hi := (hok.index hd).2
  have hc := hi.child _ j hj
  have hhi := hi.keyAfter_le (k := targetIdx i.indices l)
  have hjm := mem_of_getElem? hj
  obtain ⟨hm,hdp,hind⟩ := splitRoot_spec hok w nb (v.blocks j.leaf)
  rw [if_neg hroot] at hind
  obtain ⟨hmag,hup⟩ := updates_lower hok hd hl hp hj hn hins
  obtain ⟨a,rest,hdrop,hkey⟩ := split_key w hc.1.entries.1
  have hain : a ∈ extentsIn (v.blocks j.leaf) := mem_of_mem_drop (hdrop ▸ mem_cons_self)
  have hcov := hc.2.first_covered hhi hain
  have hne : a.block ≠ l := fun h => hn a hain (h ▸ hcov)
  have hins' := hc.2.inside a hain
  have hpl := hc.2.placed a hain
  have hr : RoutesTo i.indices a.block _ j := hi.routes hj hins'.1 (by omega)
  have hlow : searchLeaf ((extentsIn (v.blocks j.leaf)).take (le16 (v.blocks j.leaf) 2 / 2)) a.block = 0 := by
    refine searchLeaf_zero fun e he hce => ?_
    have hsplit := take_append_drop (le16 (v.blocks j.leaf) 2 / 2) (extentsIn (v.blocks j.leaf))
    have h1 := (pairwise_append.mp (hsplit.symm ▸ hc.2.sorted)).2.2 e he a (hdrop ▸ mem_cons_self)
    have h2 := ((hc.2.covers hhi (mem_of_mem_take he)).mp hce).2
    omega
  intro hupd
  have hx := hupd a.block (by have : maxBlocks = 4294967295 := rfl; omega)
  rw [if_neg hne,get_succ hm (hdp.trans hd),get_succ hok.magic hd,hind,(hok.leaves hd).lookIn hr] at hx
  obtain ⟨h0,hs'⟩ := (hok.leaves hd).small j hjm
  have hlvs := leaves_split hok hd ha hj
  rw [hr.lookIn h0 hs',search_zero (v := (splitVolume w nb j.leaf (v.blocks j.leaf)).setBlock j.leaf buf')
    (hlvs.valid j hjm) (by rw [blocks_setBlock_self,hmag]),
    blocks_setBlock_self,hup,if_neg hne,hlow] at hx
  exact Nat.ne_of_lt (hc.2.searchLeaf_pos hhi hs.blocksCount hain hcov) (Except.ok.inj hx)

omit hp in
/-- The lookup takes the last entry whose key is not above the block, so the new leaf hides
those behind the one it was split from. -/
theorem split_hides (hroot : i.extentHeader.entries < i.extentHeader.max)
    (hmid : targetIdx i.indices l + 1 ≠ i.indices.length) (hu : lookIn v i.indices 0 l = .ok 0)
    (hnew : ∀ x, x ≠ l → searchLeaf (extentsIn (v'.blocks nb)) x =
      searchLeaf ((extentsIn (v.blocks j.leaf)).drop (le16 (v.blocks j.leaf) 2 / 2)) x)
    (hmag : le16 (v'.blocks nb) 0 = extMagic) (hvalid : v'.isValidBlock nb = true) :
    ¬ IsUpdate v v' i (splitRoot w i nb (v.blocks j.leaf)) l p := by
  have hi := (hok.index hd).2
  have hlv := hok.leaves hd
  have hc := hi.child _ j hj
  have hhi := hi.keyAfter_le (k := targetIdx i.indices l)
  obtain ⟨hm,hdp,hind⟩ := splitRoot_spec hok w nb (v.blocks j.leaf)
  rw [if_pos hroot] at hind
  have hlt := (List.getElem?_eq_some_iff.mp hj).1
  obtain ⟨j₁,hj₁⟩ : ∃ j₁, i.indices[targetIdx i.indices l + 1]? = some j₁ :=
    ⟨_,getElem?_eq_getElem (by omega)⟩
  have hkey₁ : keyAfter i.indices (targetIdx i.indices l) maxBlocks = j₁.block := by
    rw [keyAfter,hj₁]
    rfl
  have hc₁ := hi.child _ j₁ hj₁
  have hhi₁ := hi.keyAfter_le (k := targetIdx i.indices l + 1)
  obtain ⟨a,hain⟩ : ∃ a, a ∈ extentsIn (v.blocks j₁.leaf) :=
    ⟨extentIn (v.blocks j₁.leaf) 0,List.mem_map.mpr ⟨0,mem_range.mpr hc₁.1.entries.1,rfl⟩⟩
  have hcov := hc₁.2.first_covered hhi₁ hain
  have hins₁ := hc₁.2.inside a hain
  have hpl₁ := hc₁.2.placed a hain
  have hr : RoutesTo i.indices a.block _ j₁ := hi.routes hj₁ hins₁.1 (by omega)
  have hpos := hc₁.2.searchLeaf_pos hhi₁ hs.blocksCount hain hcov
  have hold : lookIn v i.indices 0 a.block = .ok (searchLeaf (extentsIn (v.blocks j₁.leaf)) a.block) :=
    hlv.lookIn hr
  have hne : a.block ≠ l := by
    rintro rfl
    rw [hold] at hu
    exact Nat.ne_of_gt hpos (Except.ok.inj hu)
  obtain ⟨a',rest,hdrop,hkey⟩ := split_key w hc.1.entries.1
  have ha'in : a' ∈ extentsIn (v.blocks j.leaf) := mem_of_mem_drop (hdrop ▸ mem_cons_self)
  have ha' := hc.2.inside a' ha'in
  rw [hkey₁] at ha'
  have hle : le32 (upperHalf w (v.blocks j.leaf)) 12 ≤ a.block := by omega
  obtain ⟨hpos',hlt'⟩ := hs.free nb ha.free
  have hcount := hs.blocksCount
  intro hupd
  have hx := hupd a.block (by have : maxBlocks = 4294967295 := rfl; omega)
  rw [if_neg hne,get_succ hm (hdp.trans hd),get_succ hok.magic hd,hind,hold,
    (routesTo_last hle).lookIn (by rw [leaf_new]; exact hpos') (by rw [leaf_new]; omega),leaf_new,
      search_zero hvalid hmag,hnew _ hne,
    LeafOk.searchLeaf_outside (hc.2.sublist (drop_sublist _ _)) hhi
      (.inr (by rw [hkey₁]; exact hins₁.1))] at hx
  exact Nat.ne_of_lt hpos (Except.ok.inj hx)

/-- The split of the last leaf is an update, whichever half the block goes to. -/
theorem split_last (hroot : i.extentHeader.entries < i.extentHeader.max)
    (hlast : targetIdx i.indices l + 1 = i.indices.length) (hle : j.block ≤ l)
    (hround : HalfInserted v w v' i j nb l p buf') :
    IsUpdate v v' i (splitRoot w i nb (v.blocks j.leaf)) l p := by
  obtain ⟨hm,hdp,hind⟩ := splitRoot_spec hok w nb (v.blocks j.leaf)
  rw [if_pos hroot] at hind
  have hne := new_ne_leaf hok hd ha (mem_of_getElem? hj)
  have hlv := leaves_split_link hok hs hd ha hj (le32 (upperHalf w (v.blocks j.leaf)) 12)
  have hlen : (i.indices ++ [(⟨le32 (upperHalf w (v.blocks j.leaf)) 12,nb,0⟩ : ExtentIdx)]).length =
      i.indices.length + 1 := by simp
  intro x _
  rw [get_succ hm (hdp.trans hd),get_succ hok.magic hd,hind,← lookIn_split hok hs hd ha hj hlast x]
  rcases hround with ⟨-,hkey,hins,rfl⟩ | ⟨hkey,hins,rfl⟩
  · obtain ⟨hmag,hup⟩ := updates_upper hok hd hl hp hj hn hins
    exact hlv.set (routesTo_last hkey) leaf_new hmag
      (by rw [splitVolume_new hne.symm,extentsIn_upperHalf]; exact hup) x
  · obtain ⟨hmag,hup⟩ := updates_lower hok hd hl hp hj hn hins
    have hr : RoutesTo (i.indices ++ [⟨le32 (upperHalf w (v.blocks j.leaf)) 12,nb,0⟩]) l
        (targetIdx i.indices l) j := by
      refine ⟨?_,hle,fun k' j' hk hj' => ?_⟩
      · rw [getElem?_append_left (by omega),hj]
      · have hk' := (List.getElem?_eq_some_iff.mp hj').1
        obtain rfl : k' = i.indices.length := by omega
        rw [getElem?_append_right .refl,Nat.sub_self] at hj'
        cases hj'
        exact Nat.not_le.mp fun h => hkey ⟨hroot,h⟩
    exact hlv.set hr rfl hmag (by rw [splitVolume_child,extentsIn_lowerHalf]; exact hup) x

omit hn in
/-- After a split the insertion is an update where the leaf was the last one and the root
had room. -/
theorem isUpdate_split (hp0 : 0 < p) (hu : v.getFileBlockExtent i l = .ok 0)
    (hfull : le16 (v.blocks j.leaf) 4 ≤ le16 (v.blocks j.leaf) 2)
    (h : insertExtentLoop ino l p (fuel + 1) (splitRoot w i nb (v.blocks j.leaf))
      (splitVolume w nb j.leaf (v.blocks j.leaf)) = .ok i' v') :
    IsUpdate v v' i i' l p ↔ (∀ j ∈ i.indices.head?, j.block ≤ l) ∧
      targetIdx i.indices l + 1 = i.indices.length ∧ i.extentHeader.entries < i.extentHeader.max := by
  have hi := (hok.index hd).2
  have hlv := hok.leaves hd
  have hjm := mem_of_getElem? hj
  have hne := new_ne_leaf hok hd ha hjm
  obtain ⟨rfl,buf',hround⟩ := split_round hok hs hd ha hj hfull h
  rw [get_succ hok.magic hd] at hu
  have hn := child_not_covers hi .refl hlv hs.blocksCount hj hu
  by_cases hroot : i.extentHeader.entries < i.extentHeader.max
  · by_cases hlast : targetIdx i.indices l + 1 = i.indices.length
    · rcases routes_or_none i.indices l with ⟨j',hr,-⟩ | ⟨hall,-⟩
      · obtain rfl : j' = j := some.inj (hr.1.symm.trans hj)
        exact iff_of_true (split_last hok hs hd hl hp ha hj hn hroot hlast hr.2.1 hround)
          ⟨hi.head_le.mpr (.inr ⟨j',hr⟩),hlast,hroot⟩
      · refine iff_of_false (not_isUpdate_of_zero hp0 hl (split_before hok hd hj hroot hall)) fun hc => ?_
        rcases hi.head_le.mp hc.1 with hnil | ⟨j',hr⟩
        · simp [hnil] at hj
        · exact absurd hr.2.1 (Nat.not_le.mpr (hall j' hr.mem))
    · refine iff_of_false ?_ fun hc => hlast hc.2.1
      have hU : le16 (upperHalf w (v.blocks j.leaf)) 0 = extMagic :=
        congrArg ExtentHeader.magic (blockHeader_upperHalf w)
      rcases hround with ⟨-,-,hins,rfl⟩ | ⟨-,hins,rfl⟩
      · obtain ⟨hmag,hup⟩ := updates_upper hok hd hl hp hj hn hins
        refine split_hides hok hs hd hl ha hj hn hroot hlast hu (fun x hx => ?_) ?_
          (ha.isValidBlock.trans (hs.valid ha.free))
        · rw [blocks_setBlock_self,hup,if_neg hx]
        · rw [blocks_setBlock_self,hmag]
      · refine split_hides hok hs hd hl ha hj hn hroot hlast hu (fun x hx => ?_) ?_
          (ha.isValidBlock.trans (hs.valid ha.free))
        · rw [blocks_setBlock_of_ne hne.symm,splitVolume_new hne.symm,extentsIn_upperHalf]
        · rw [blocks_setBlock_of_ne hne.symm,splitVolume_new hne.symm,hU]
  · refine iff_of_false ?_ fun hc => hroot hc.2.2
    rcases hround with ⟨hr,-⟩ | ⟨-,hins,rfl⟩
    · exact absurd hr hroot
    · exact split_unlinked hok hs hd hl hp ha hj hn hroot hins

end AfterSplit

/-- The nodes that an insertion below the second level goes through. -/
structure DeepPath (v : Volume) (i : Inode) (d l : Nat) (j j₂ : ExtentIdx) : Prop where
  root : i.indices[targetIdx i.indices l]? = some j
  child : (indicesIn (v.blocks j.leaf))[targetIdx (indicesIn (v.blocks j.leaf)) l]? = some j₂
  index : IndexOk (NodeOk v (d + 1)) i.indices 0 maxBlocks
  node : NodeOk v (d + 1) j.leaf j.block (keyAfter i.indices (targetIdx i.indices l) maxBlocks)
  nodup : (nodes v (d + 1) j.leaf).Nodup

theorem TreeOk.deepPath (hok : TreeOk v i) (hd : i.extentHeader.depth = d + 2) (l : Nat) :
    ∃ j j₂, DeepPath v i d l j j₂ := by
  obtain ⟨he,hi⟩ := hok.index hd
  have hj := indices_target (l := l) he
  have hc := hi.child _ _ hj
  refine ⟨_,_,hj,indicesIn_target hc.header.entries.1,hi,hc,?_⟩
  have hnd := TreeOk.nodes_eq (v := v) hd ▸ hok.nodup
  exact (nodup_flatMap.mp hnd).1 _ (mem_of_getElem? hj)

namespace DeepPath

variable {j₂ : ExtentIdx} (h : DeepPath v i d l j j₂)

include h

theorem sub_node : NodeOk v d j₂.leaf j₂.block (keyAfter (indicesIn (v.blocks j.leaf))
    (targetIdx (indicesIn (v.blocks j.leaf)) l)
    (keyAfter i.indices (targetIdx i.indices l) maxBlocks)) := h.node.2.child _ _ h.child

theorem sub_mem : j₂.leaf ∈ nodes v (d + 1) j.leaf :=
  mem_cons_of_mem _ (mem_flatMap.mpr ⟨j₂,mem_of_getElem? h.child,mem_nodes⟩)

theorem child_ne_sub : j.leaf ≠ j₂.leaf := by
  intro he
  apply (nodup_cons.mp h.nodup).1
  rw [mem_flatMap]
  exact ⟨j₂,mem_of_getElem? h.child,he ▸ mem_nodes⟩

theorem round (hd : i.extentHeader.depth = d + 2) (he : 0 < i.extentHeader.entries)
    (hr : insertExtentLoop ino l p (fuel + 1) i v = .ok i' v') :
    le16 (v.blocks j₂.leaf) 2 < le16 (v.blocks j₂.leaf) 4 ∧ i' = i ∧
      v' = v.setBlock j₂.leaf (appendExtent (v.blocks j₂.leaf) l p) := by
  have hh := h.node.header
  exact loop_sub (by omega) he h.root hh.small hh.valid (by rw [hh.depth]; omega) hh.entries.1 h.child
    h.sub_node.header.small hr

theorem search_child (buf' : Bytes) : (v.setBlock j₂.leaf buf').searchExtentTree x (d + 1) j.leaf =
    lookIn (v.setBlock j₂.leaf buf') (indicesIn (v.blocks j.leaf)) d x := by
  have hh := h.node.header
  have hb := blocks_setBlock_of_ne (v := v) (d := buf') h.child_ne_sub
  rw [search_succ (v := v.setBlock j₂.leaf buf') hh.valid (by rw [hb]; exact hh.magic),hb]

theorem get_before (hm : i.extentHeader.magic = extMagic) (hd : i.extentHeader.depth = d + 2)
    (buf' : Bytes) (hb : ¬ ((∀ j ∈ i.indices.head?, j.block ≤ l) ∧
      ∀ a ∈ (indicesIn (v.blocks j.leaf)).head?, a.block ≤ l)) :
    (v.setBlock j₂.leaf buf').getFileBlockExtent i l = .ok 0 := by
  have hh := h.node.header
  rw [get_succ hm hd]
  rcases routes_or_none i.indices l with ⟨j',hr,-⟩ | ⟨hall,-⟩
  · obtain rfl : j' = j := some.inj (hr.1.symm.trans h.root)
    rw [hr.lookIn hh.pos hh.small,h.search_child]
    rcases routes_or_none (indicesIn (v.blocks j'.leaf)) l with ⟨j'',hr',-⟩ | ⟨hall,-⟩
    · exact absurd ⟨h.index.head_le.mpr (.inr ⟨_,hr⟩),h.node.2.head_le.mpr (.inr ⟨_,hr'⟩)⟩ hb
    · exact lookIn_none hall
  · exact lookIn_none hall

/-- Behind the first entries of both levels, the lookup takes the entries of the insertion. -/
theorem routes (hb : (∀ j ∈ i.indices.head?, j.block ≤ l) ∧
      ∀ a ∈ (indicesIn (v.blocks j.leaf)).head?, a.block ≤ l) :
    RoutesTo i.indices l (targetIdx i.indices l) j ∧
      RoutesTo (indicesIn (v.blocks j.leaf)) l (targetIdx (indicesIn (v.blocks j.leaf)) l) j₂ := by
  constructor
  · rcases h.index.head_le.mp hb.1 with hnil | ⟨j',hr⟩
    · have := h.root
      simp [hnil] at this
    · obtain rfl : j' = j := some.inj (hr.1.symm.trans h.root)
      exact hr
  · rcases h.node.2.head_le.mp hb.2 with hnil | ⟨j',hr⟩
    · have := h.child
      simp [hnil] at this
    · obtain rfl : j' = j₂ := some.inj (hr.1.symm.trans h.child)
      exact hr

end DeepPath

theorem isUpdate_two (hok : TreeOk v i) (hs : v.Sane) (hd : i.extentHeader.depth = 2)
    (hl : l + 1 < 4294967296) (hp : p < 4294967296) (hp0 : 0 < p)
    (hu : v.getFileBlockExtent i l = .ok 0) (hpath : DeepPath v i 0 l j j₂)
    (h : insertExtentLoop ino l p (fuel + 1) i v = .ok i' v') :
    IsUpdate v v' i i' l p ↔ (∀ j ∈ i.indices.head?, j.block ≤ l) ∧
      ∀ a ∈ (indicesIn (v.blocks j.leaf)).head?, a.block ≤ l := by
  obtain ⟨he,hi⟩ := hok.index hd
  obtain ⟨hroom,rfl,rfl⟩ := hpath.round hd he h
  by_cases hb : (∀ j ∈ i'.indices.head?, j.block ≤ l) ∧
      ∀ a ∈ (indicesIn (v.blocks j.leaf)).head?, a.block ≤ l
  · refine iff_of_true (fun x _ => ?_) hb
    obtain ⟨hr,hr₂⟩ := hpath.routes hb
    have hh := hpath.node.header
    have hlv : Leaves v (indicesIn (v.blocks j.leaf)) :=
      hpath.node.2.leaves (nodup_cons.mp hpath.nodup).2
    rw [get_succ hok.magic hd,hr.lookIn hh.pos hh.small,search_succ hh.valid hh.magic] at hu
    have hhi := hi.keyAfter_le (k := targetIdx i'.indices l)
    have hn := child_not_covers hpath.node.2 hhi hlv hs.blocksCount hpath.child hu
    obtain ⟨hm,hup⟩ := LeafInserted.updates (.inr ⟨hroom,rfl⟩) hpath.sub_node.2
      (Nat.le_trans hpath.node.2.keyAfter_le hhi) hn hl hp
    rw [get_succ hok.magic hd,get_succ hok.magic hd]
    refine lookIn_set hi.leaf hr (fun x => ?_) (fun k' j' hj' hk x => ?_) x
    · rw [hpath.search_child,search_succ hh.valid hh.magic]
      exact hlv.set hr₂ rfl (hm.trans hpath.sub_node.header.magic) hup x
    · have hnd := TreeOk.nodes_eq (v := v) hd ▸ hok.nodup
      refine search_congr (hi.child _ j' hj') (fun _ => rfl) fun n hn' => ?_
      refine blocks_setBlock_of_ne fun he => ?_
      exact nodes_disjoint hnd hj' hpath.root hk n hn' (he ▸ hpath.sub_mem)
  · exact iff_of_false (not_isUpdate_of_zero hp0 hl (hpath.get_before hok.magic hd _ hb)) hb

/-- From depth 3 on the new entry ends up in an index, where it is the entry of block 1. -/
theorem not_isUpdate_deep (hok : TreeOk v i) (hd : i.extentHeader.depth = d + 3)
    (hone : le16 (v.blocks 1) 0 ≠ extMagic) (hl : l + 1 < 4294967296) (hp : p < 4294967296)
    (hp0 : 0 < p) (h : insertExtentLoop ino l p (fuel + 1) i v = .ok i' v') :
    ¬ IsUpdate v v' i i' l p := by
  obtain ⟨j,j₂,hpath⟩ := hok.deepPath hd l
  obtain ⟨hroom,rfl,rfl⟩ := hpath.round hd (hok.index hd).1 h
  by_cases hb : (∀ j ∈ i'.indices.head?, j.block ≤ l) ∧
      ∀ a ∈ (indicesIn (v.blocks j.leaf)).head?, a.block ≤ l
  · obtain ⟨hr,hr₂⟩ := hpath.routes hb
    have hh := hpath.node.header
    have hh₂ := hpath.sub_node.header
    have hbuf := blocks_setBlock_self (v := v) (b := j₂.leaf)
      (d := appendExtent (v.blocks j₂.leaf) l p)
    have hlt := le16_lt (b := v.blocks j₂.leaf) (o := 4)
    have hleaf : (⟨l,1,p % 65536⟩ : ExtentIdx).leaf % 4294967296 = 1 := by
      simp [ExtentIdx.leaf]
    have hleaf0 : (⟨l,1,p % 65536⟩ : ExtentIdx).leaf ≠ 0 := by
      simp [ExtentIdx.leaf]
    have hsub1 : 1 ≠ j₂.leaf := fun he => hone (he ▸ hh₂.magic)
    have herr : ∀ d q, (v.setBlock j₂.leaf (appendExtent (v.blocks j₂.leaf) l p)).searchExtentTree l d 1 ≠
        .ok q := by
      intro d q hq
      unfold Volume.searchExtentTree at hq
      split at hq
      · cases hq
      · rename_i buf hread
        unfold Volume.readBlock at hread
        split at hread
        · cases hread
          rw [blocks_setBlock_of_ne hsub1,if_pos hone] at hq
          cases hq
        · cases hread
    intro hupd
    have hx := hupd l (by omega)
    rw [if_pos rfl,get_succ hok.magic hd,hr.lookIn hh.pos hh.small,hpath.search_child,
      hr₂.lookIn hh₂.pos hh₂.small,
      search_succ (v := v.setBlock j₂.leaf (appendExtent (v.blocks j₂.leaf) l p)) hh₂.valid
        (by rw [hbuf,appendExtent_header.magic]; exact hh₂.magic),
      hbuf,indicesIn_append (by omega) (by omega) hp,lookIn,searchIndex_append,if_pos (Nat.le_refl _),
      if_neg hleaf0,hleaf] at hx
    exact herr _ _ hx
  · exact not_isUpdate_of_zero hp0 hl (hpath.get_before hok.magic hd _ hb)

/-- Where the insertion of `l` at `p` updates the map. A root that has to grow and an index
entry are chosen by their first key, so `l` must not be before it. A full leaf must be the
last one, with room in the root. The third level and those below it are never handled. -/
def InsertsRight (v : Volume) (i : Inode) (l p : Nat) : Prop :=
  l ≠ maxBlocks ∧
    match i.extentHeader.depth with
    | 0 => i.extentHeader.entries < i.extentHeader.max ∨ ∀ e ∈ i.extents.head?, e.block ≤ l
    | 1 =>
      let leaf := v.blocks (i.extentIdxAt (targetIdx i.indices l)).leaf
      (∀ j ∈ i.indices.head?, j.block ≤ l) ∧
        (extendsLast (extentsIn leaf) l p = true ∨ le16 leaf 2 < le16 leaf 4 ∨
          targetIdx i.indices l + 1 = i.extentHeader.entries ∧
            i.extentHeader.entries < i.extentHeader.max)
    | 2 =>
      (∀ j ∈ i.indices.head?, j.block ≤ l) ∧
        ∀ j ∈ (indicesIn (v.blocks (i.extentIdxAt (targetIdx i.indices l)).leaf)).head?, j.block ≤ l
    | _ => False

theorem isUpdate_one (hok : TreeOk v i) (hs : v.Sane) (hd : i.extentHeader.depth = 1)
    (hl : l + 1 < 4294967296) (hp : p < 4294967296) (hp0 : 0 < p)
    (hu : v.getFileBlockExtent i l = .ok 0) (hj : i.indices[targetIdx i.indices l]? = some j)
    (h : insertExtentLoop ino l p (fuel + 2) i v = .ok i' v') :
    IsUpdate v v' i i' l p ↔ (∀ j ∈ i.indices.head?, j.block ≤ l) ∧
      (extendsLast (extentsIn (v.blocks j.leaf)) l p = true ∨
        le16 (v.blocks j.leaf) 2 < le16 (v.blocks j.leaf) 4 ∨
        targetIdx i.indices l + 1 = i.extentHeader.entries ∧
          i.extentHeader.entries < i.extentHeader.max) := by
  obtain ⟨he,hi⟩ := hok.index hd
  have hh := (hi.child _ j hj).header
  have hlen : i.indices.length = i.extentHeader.entries := by simp [Inode.indices]
  rcases loop_child (by omega) he hj hh.small hh.valid hh.depth h with
    ⟨buf',hins,rfl,rfl⟩ | ⟨hext,hfull,nb,w,ha,h⟩
  · rw [isUpdate_child hok hs hd hl hp hp0 hu hj hins]
    refine (and_iff_left ?_).symm
    rcases hins with ⟨hext,-⟩ | ⟨hroom,-⟩
    · exact .inl hext
    · exact .inr (.inl hroom)
  · rw [isUpdate_split hok hs hd hl hp (allocated_of_ok ha) hj hp0 hu hfull h,hlen]
    refine and_congr_right fun _ => ⟨fun hc => .inr (.inr hc),?_⟩
    rintro (hext' | hroom | hc)
    · rw [hext] at hext'
      cases hext'
    · omega
    · exact hc

/-- A successful insertion updates the map exactly under `InsertsRight`. Block 1 holds the
superblock or the group descriptors, never an extent node. -/
theorem ext4InsertExtent_update_iff (hs : v.Sane) (hone : le16 (v.blocks 1) 0 ≠ extMagic)
    (hok : TreeOk v i) (hl : l < 4294967296) (hu : v.getFileBlockExtent i l = .ok 0)
    (hp : 0 < p ∧ p < 4294967296) (h : ext4InsertExtent i ino l p v = .ok i' v') :
    IsUpdate v v' i i' l p ↔ InsertsRight v i l p := by
  have hmb : maxBlocks = 4294967295 := rfl
  by_cases hlast : l = maxBlocks
  · refine iff_of_false (fun hupd => ?_) fun hc => hc.1 hlast
    have := hupd l hl
    rw [if_pos rfl,hlast] at this
    exact Nat.ne_of_gt hp.1 (get_last this)
  · have hl' : l + 1 < 4294967296 := by omega
    rw [InsertsRight,and_iff_right hlast]
    match hd : i.extentHeader.depth with
    | 0 => exact isUpdate_leaf hok hs hd hl' hp.2 hp.1 hu h
    | 1 => exact isUpdate_one hok hs hd hl' hp.2 hp.1 hu (indices_target (hok.index hd).1) h
    | 2 =>
      obtain ⟨j,j₂,hpath⟩ := hok.deepPath hd l
      have hj := indices_target (l := l) (hok.index hd).1
      obtain rfl := some.inj (hpath.root.symm.trans hj)
      exact isUpdate_two hok hs hd hl' hp.2 hp.1 hu hpath h
    | d + 3 => exact iff_of_false (not_isUpdate_deep hok hd hone hl' hp.2 hp.1 h) id

/-- An inode with extents for blocks 10, 20, 30 and 40, which is all it has room for. -/
def fullRoot : Inode :=
  { Inode.initFileExt4 0 with
    words := fun k => [62218 + 65536 * 4,4,0,10,1,41,20,1,42,30,1,43,40,1,44].getD k 0 }

theorem fullRoot_words (k : Nat) : fullRoot.words k < 4294967296 := by
  have hall : ∀ w ∈ [62218 + 65536 * 4,4,0,10,1,41,20,1,42,30,1,43,40,1,44], w < 4294967296 := by decide
  simp only [fullRoot,getD_eq_getElem?_getD]
  cases h : [62218 + 65536 * 4,4,0,10,1,41,20,1,42,30,1,43,40,1,44][k]? with
  | none => decide
  | some w => exact hall w (mem_of_getElem? h)

theorem fullRoot_extents : fullRoot.extents = [⟨10,1,0,41⟩,⟨20,1,0,42⟩,⟨30,1,0,43⟩,⟨40,1,0,44⟩] := by
  decide

theorem fullRoot_ok : TreeOk smallVolume fullRoot where
  magic := by decide
  entries := by decide
  max := by decide
  words := fullRoot_words
  tree := by
    show LeafOk smallVolume fullRoot.extents 0 maxBlocks
    rw [fullRoot_extents]
    exact ⟨by decide,by decide,by decide⟩
  nodup := nodup_nil
  used := fun _ h => nomatch h

/-- Block 5 is inserted into the grown tree behind an index entry that starts at block 10. -/
theorem grown_root_hides_block : smallVolume.Sane ∧ TreeOk smallVolume fullRoot ∧
    smallVolume.getFileBlockExtent fullRoot 5 = .ok 0 ∧
      (match ext4InsertExtent fullRoot 12 5 50 smallVolume with
        | .ok i' v' => v'.getFileBlockExtent i' 5 = .ok 0
        | .error _ _ => False) := by
  exact ⟨smallVolume_sane,fullRoot_ok,rfl,rfl⟩

/-- Behind the last extent the tree grows and the block is found. -/
theorem ext4InsertExtent_update_behind :
    ∃ i' v', ext4InsertExtent fullRoot 12 50 60 smallVolume = .ok i' v' ∧
      IsUpdate smallVolume v' fullRoot i' 50 60 := by
  have h : ext4InsertExtent fullRoot 12 50 60 smallVolume = _ := rfl
  refine ⟨_,_,h,(ext4InsertExtent_update_iff smallVolume_sane (by decide) fullRoot_ok (by decide) rfl
    (by decide) h).mpr ⟨by decide,.inr ?_⟩⟩
  rw [fullRoot_extents]
  decide

end Miku.Ext
