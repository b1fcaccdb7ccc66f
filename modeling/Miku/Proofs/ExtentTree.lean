import Mathlib.Data.List.Nodup
import Miku.Proofs.Allocator
import Miku.Proofs.ExtentNodes

namespace Miku.Ext
open Lib List

variable {v w : Volume} {i : Inode} {is : List ExtentIdx} {es : List Extent}
    {b d k : Nat}

/-- Extents of the volume, in order and inside the range of logical blocks. -/
structure LeafOk (v : Volume) (es : List Extent) (lo hi : Nat) : Prop where
  sorted : es.Pairwise fun a b => a.block + a.actualLen ≤ b.block
  inside : ∀ e ∈ es, lo ≤ e.block ∧ e.block + e.actualLen ≤ hi
  placed : ∀ e ∈ es, 0 < e.actualLen ∧ 0 < e.start ∧ e.start + e.actualLen ≤ v.blocksCount

/-- The key behind that of entry `k`. -/
def keyAfter (is : List ExtentIdx) (k hi : Nat) : Nat := (is[k + 1]?.map ExtentIdx.block).getD hi

/-- Index entries in order; a child has the logical blocks up to the next key. -/
structure IndexOk (P : Nat → Nat → Nat → Prop) (is : List ExtentIdx) (lo hi : Nat) : Prop where
  sorted : is.Pairwise fun a b => a.block < b.block
  inside : ∀ j ∈ is, lo ≤ j.block ∧ j.block < hi
  child : ∀ k j, is[k]? = some j → P j.leaf j.block (keyAfter is k hi)

structure HeaderOk (v : Volume) (b d : Nat) : Prop where
  valid : v.isValidBlock b = true
  small : b < 4294967296
  magic : le16 (v.blocks b) 0 = extMagic
  depth : le16 (v.blocks b) 6 = d
  entries : 0 < le16 (v.blocks b) 2 ∧ le16 (v.blocks b) 2 ≤ le16 (v.blocks b) 4
  max : 12 + 12 * le16 (v.blocks b) 4 ≤ v.blockSize

/-- The subtree in block `b`, of depth `d`, for the logical blocks from `lo` up to `hi`. -/
def NodeOk (v : Volume) : Nat → Nat → Nat → Nat → Prop
  | 0, b, lo, hi => HeaderOk v b 0 ∧ LeafOk v (extentsIn (v.blocks b)) lo hi
  | d + 1, b, lo, hi => HeaderOk v b (d + 1) ∧ IndexOk (NodeOk v d) (indicesIn (v.blocks b)) lo hi

def nodes (v : Volume) : Nat → Nat → List Nat
  | 0, b => [b]
  | d + 1, b => b :: (indicesIn (v.blocks b)).flatMap fun j => nodes v d j.leaf

def treeNodes (v : Volume) (i : Inode) : List Nat :=
  match i.extentHeader.depth with
  | 0 => []
  | d + 1 => i.indices.flatMap fun j => nodes v d j.leaf

/-- The last logical block is out of reach, so every end is a block number. -/
def maxBlocks : Nat := 4294967295

/-- A well-formed extent tree. Its nodes are blocks of their own, in use. -/
structure TreeOk (v : Volume) (i : Inode) : Prop where
  magic : i.extentHeader.magic = extMagic
  entries : i.extentHeader.entries ≤ i.extentHeader.max
  max : i.extentHeader.max ≤ 4
  words : ∀ k, i.words k < 4294967296
  tree : match i.extentHeader.depth with
    | 0 => LeafOk v i.extents 0 maxBlocks
    | d + 1 => 0 < i.extentHeader.entries ∧ IndexOk (NodeOk v d) i.indices 0 maxBlocks
  nodup : (treeNodes v i).Nodup
  used : ∀ b ∈ treeNodes v i, ¬ v.Free b

/-- What both lookups do with the entries of an index. -/
def lookIn (v : Volume) (is : List ExtentIdx) (d x : Nat) : Except FsError Nat :=
  if searchIndex is x = 0 then .ok 0 else v.searchExtentTree x d (searchIndex is x % 4294967296)

theorem get_zero (hm : i.extentHeader.magic = extMagic) (hd : i.extentHeader.depth = 0) :
    v.getFileBlockExtent i x = .ok (searchLeaf i.extents x) := by
  simp [Volume.getFileBlockExtent,hm,hd]

theorem get_succ (hm : i.extentHeader.magic = extMagic) (hd : i.extentHeader.depth = d + 1) :
    v.getFileBlockExtent i x = lookIn v i.indices d x := by
  simp [Volume.getFileBlockExtent,hm,hd,lookIn]

section

variable (hv : v.isValidBlock b = true) (hm : le16 (v.blocks b) 0 = extMagic)
include hv hm

theorem search_zero : v.searchExtentTree x 0 b = .ok (searchLeaf (extentsIn (v.blocks b)) x) := by
  simp [Volume.searchExtentTree,Volume.readBlock_of_valid hv,hm]

theorem search_succ : v.searchExtentTree x (d + 1) b = lookIn v (indicesIn (v.blocks b)) d x := by
  rw [Volume.searchExtentTree,Volume.readBlock_of_valid hv]
  simp [hm,lookIn]

end

section

variable (h : RoutesTo is x k j)
include h

theorem RoutesTo.unique (h' : RoutesTo is x k' j') : k = k' ∧ j = j' := by
  obtain ⟨hj,hle,hlast⟩ := h
  obtain ⟨hj',hle',hlast'⟩ := h'
  obtain hlt | rfl | hlt := Nat.lt_trichotomy k k'
  · exact absurd (hlast k' j' hlt hj') (Nat.not_lt.mpr hle')
  · exact ⟨rfl,Option.some.inj (hj.symm.trans hj')⟩
  · exact absurd (hlast' k j hlt hj) (Nat.not_lt.mpr hle)

theorem RoutesTo.mem : j ∈ is := mem_of_getElem? h.1

theorem RoutesTo.search : searchIndex is x = j.leaf ∧ targetIdx is x = k := by
  rcases routes_or_none is x with ⟨j',hr,hs⟩ | ⟨hall,-⟩
  · obtain ⟨hk,hj⟩ := h.unique hr
    exact ⟨hj ▸ hs,hk.symm⟩
  · exact absurd h.2.1 (Nat.not_le.mpr (hall j h.mem))

theorem RoutesTo.lookIn (h0 : 0 < j.leaf)
    (hs : j.leaf < 4294967296) : lookIn v is d x = v.searchExtentTree x d j.leaf := by
  rw [Ext.lookIn,h.search.1,if_neg (Nat.ne_of_gt h0),Nat.mod_eq_of_lt hs]

end

theorem lookIn_none (h : ∀ j ∈ is, x < j.block) : lookIn v is d x = .ok 0 := by
  rw [lookIn,searchIndex_none h,if_pos rfl]

theorem HeaderOk.pos (h : HeaderOk v b d) : 0 < b := by
  have := h.valid
  simp only [Volume.isValidBlock,Bool.and_eq_true,bne_iff_ne] at this
  omega

theorem NodeOk.header (h : NodeOk v d b lo hi) : HeaderOk v b d := by
  cases d with
  | zero => exact h.1
  | succ d => exact h.1

theorem IndexOk.leaf (h : IndexOk (NodeOk v d) is lo hi) : ∀ j ∈ is, 0 < j.leaf ∧ j.leaf < 4294967296 := by
  intro j hj
  obtain ⟨k,hk⟩ := getElem?_of_mem hj
  exact ⟨(h.child k j hk).header.pos,(h.child k j hk).header.small⟩

theorem mem_nodes : b ∈ nodes v d b := by cases d <;> exact mem_cons_self

theorem search_congr (hn : NodeOk v d b lo hi) (hvalid : ∀ n, w.isValidBlock n = v.isValidBlock n)
    (hsame : ∀ n ∈ nodes v d b, w.blocks n = v.blocks n) :
    w.searchExtentTree x d b = v.searchExtentTree x d b := by
  have hb := hsame b mem_nodes
  have hh := hn.header
  induction d generalizing b lo hi with
  | zero =>
    rw [search_zero hh.valid hh.magic,search_zero ((hvalid b).trans hh.valid) (hb ▸ hh.magic),hb]
  | succ d ih =>
    rw [search_succ hh.valid hh.magic,search_succ ((hvalid b).trans hh.valid) (hb ▸ hh.magic),hb]
    rcases routes_or_none (indicesIn (v.blocks b)) x with ⟨j,hr,-⟩ | ⟨hall,-⟩
    · have hc := hn.2.child _ j hr.1
      have hsub : ∀ n ∈ nodes v d j.leaf, w.blocks n = v.blocks n := fun n hm =>
        hsame n (mem_cons_of_mem _ (mem_flatMap.mpr ⟨j,hr.mem,hm⟩))
      rw [hr.lookIn hc.header.pos hc.header.small,hr.lookIn hc.header.pos hc.header.small]
      exact ih hc hsub (hsub _ mem_nodes) hc.header
    · rw [lookIn_none hall,lookIn_none hall]

theorem nodes_disjoint (h : (is.flatMap fun j => nodes v d j.leaf).Nodup)
    (hj : is[k]? = some j) (hj' : is[k']? = some j') (hk : k ≠ k') :
    ∀ n ∈ nodes v d j.leaf, n ∉ nodes v d j'.leaf := by
  have hp := pairwise_iff_getElem.mp (nodup_flatMap.mp h).2
  obtain ⟨hlt,rfl⟩ := List.getElem?_eq_some_iff.mp hj
  obtain ⟨hlt',rfl⟩ := List.getElem?_eq_some_iff.mp hj'
  intro n hn hn'
  rcases Nat.lt_or_gt_of_ne hk with hlt'' | hlt''
  · exact hp k k' hlt hlt' hlt'' hn hn'
  · exact hp k' k hlt' hlt hlt'' hn' hn

theorem lookIn_set (hn : ∀ j ∈ is, 0 < j.leaf ∧ j.leaf < 4294967296) (hr : RoutesTo is l k j)
    (hchild : ∀ x, w.searchExtentTree x d j.leaf = if x = l then .ok p else v.searchExtentTree x d j.leaf)
    (hothers : ∀ k' j', is[k']? = some j' → k' ≠ k →
      ∀ x, w.searchExtentTree x d j'.leaf = v.searchExtentTree x d j'.leaf) (x : Nat) :
    lookIn w is d x = if x = l then .ok p else lookIn v is d x := by
  rcases routes_or_none is x with ⟨j',hr',-⟩ | ⟨hall,-⟩
  · obtain ⟨h0,hs⟩ := hn j' hr'.mem
    rw [hr'.lookIn h0 hs,hr'.lookIn h0 hs]
    by_cases hk : targetIdx is x = k
    · obtain rfl : j' = j := Option.some.inj (hr'.1.symm.trans (hk ▸ hr.1))
      exact hchild x
    · have hx : x ≠ l := by
        rintro rfl
        exact hk (hr'.unique hr).1
      rw [if_neg hx,hothers _ j' hr'.1 hk]
  · have hx : x ≠ l := fun h => absurd hr.2.1 (Nat.not_le.mpr (h ▸ hall j hr.mem))
    rw [lookIn_none hall,lookIn_none hall,if_neg hx]

section

variable (h : LeafOk v es lo hi) (hhi : hi ≤ maxBlocks)
include h hhi

theorem LeafOk.covers (he : e ∈ es) : e.Covers x ↔ e.block ≤ x ∧ x < e.block + e.actualLen := by
  have := (h.inside e he).2
  unfold maxBlocks at hhi
  rw [Extent.Covers,Nat.mod_eq_of_lt (by omega)]

theorem LeafOk.searchLeaf_pos
    (hv : v.blocksCount < 4294967296) (he : e ∈ es) (hc : e.Covers x) : 0 < searchLeaf es x := by
  rw [searchLeaf_eq]
  cases hf : es.find? fun e => decide (e.Covers x) with
  | none => exact absurd hc (by simpa using find?_eq_none.mp hf e he)
  | some a =>
    have ha := mem_of_find?_eq_some hf
    have hax : a.Covers x := by simpa using find?_some hf
    have h1 := (h.covers hhi ha).mp hax
    have h2 := h.placed a ha
    simp only [Extent.physAt]
    rw [Nat.mod_eq_of_lt (by omega)]
    omega

theorem LeafOk.not_covers
    (hv : v.blocksCount < 4294967296) (h0 : searchLeaf es x = 0) : ∀ e ∈ es, ¬ e.Covers x :=
  fun _ he hc => Nat.ne_of_gt (h.searchLeaf_pos hhi hv he hc) h0

theorem LeafOk.searchLeaf_outside (hx : x < lo ∨ hi ≤ x) : searchLeaf es x = 0 := by
  refine searchLeaf_zero fun e he hc => ?_
  have h1 := (h.covers hhi he).mp hc
  have h2 := h.inside e he
  omega

theorem LeafOk.first_covered (he : e ∈ es) : e.Covers e.block := by
  have := (h.placed e he).1
  exact (h.covers hhi he).mpr ⟨.refl,by omega⟩

end

theorem searchLeaf_last : searchLeaf es maxBlocks = 0 := searchLeaf_zero fun _ _ => not_covers_last

theorem search_last (h : v.searchExtentTree maxBlocks d b = .ok p) : p = 0 := by
  induction d generalizing b with
  | zero =>
    unfold Volume.searchExtentTree at h
    split at h
    · cases h
    · split at h
      · cases h
      · exact (Except.ok.inj h).symm.trans searchLeaf_last
  | succ d ih =>
    unfold Volume.searchExtentTree at h
    split at h
    · cases h
    · split at h
      · cases h
      · simp only at h
        split at h
        · exact (Except.ok.inj h).symm
        · exact ih h

theorem get_last (h : v.getFileBlockExtent i maxBlocks = .ok p) : p = 0 := by
  unfold Volume.getFileBlockExtent at h
  split at h
  · cases h
  · split at h
    · exact (Except.ok.inj h).symm.trans searchLeaf_last
    · simp only at h
      split at h
      · exact (Except.ok.inj h).symm
      · exact search_last h

end Miku.Ext
