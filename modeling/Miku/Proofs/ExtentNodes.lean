import Mathlib.Data.List.Basic
import Mathlib.Data.List.Induction
import Miku.Ext.Extents

namespace Miku.Ext
open Lib List Inode

/-- The lookup finds `x` in extent `e`. -/
def Extent.Covers (e : Extent) (x : Nat) : Prop :=
  e.block ≤ x ∧ x < (e.block + e.actualLen) % 4294967296

instance (e : Extent) (x : Nat) : Decidable (e.Covers x) :=
  inferInstanceAs (Decidable (_ ∧ _))

def Extent.physAt (e : Extent) (x : Nat) : Nat := (e.start + (x - e.block)) % 4294967296

variable {es : List Extent} {e : Extent} {is : List ExtentIdx} {p : Nat}

theorem searchLeaf_eq : searchLeaf es x =
    match es.find? fun e => decide (e.Covers x) with
    | some e => e.physAt x
    | none => 0 := rfl

theorem searchLeaf_zero (h : ∀ e ∈ es, ¬ e.Covers x) : searchLeaf es x = 0 := by
  have : es.find? (fun e => decide (e.Covers x)) = none :=
    find?_eq_none.mpr fun e he => by simpa using h e he
  rw [searchLeaf_eq,this]

theorem searchLeaf_cons : searchLeaf (e :: es) x =
    if e.Covers x then e.physAt x else searchLeaf es x := by
  rw [searchLeaf_eq,find?_cons]
  by_cases h : e.Covers x
  · simp [h]
  · simp only [h,decide_false]
    rfl

theorem searchLeaf_append_left (h : ∀ e ∈ xs, ¬ e.Covers x) :
    searchLeaf (xs ++ ys) x = searchLeaf ys x := by
  induction xs with
  | nil => rfl
  | cons e xs ih =>
    rw [cons_append,searchLeaf_cons,if_neg (h e mem_cons_self)]
    exact ih fun e' he => h e' (mem_cons_of_mem _ he)

theorem searchLeaf_append_right (h : ∀ e ∈ ys, ¬ e.Covers x) :
    searchLeaf (xs ++ ys) x = searchLeaf xs x := by
  induction xs with
  | nil => exact searchLeaf_zero h
  | cons e xs ih => rw [cons_append,searchLeaf_cons,searchLeaf_cons,ih]

theorem searchLeaf_append_congr (h : searchLeaf ys x = searchLeaf zs x) :
    searchLeaf (xs ++ ys) x = searchLeaf (xs ++ zs) x := by
  induction xs with
  | nil => exact h
  | cons e xs ih => rw [cons_append,cons_append,searchLeaf_cons,searchLeaf_cons,ih]

theorem searchLeaf_skip (h : ¬ e.Covers x) : searchLeaf (xs ++ e :: ys) x = searchLeaf (xs ++ ys) x := by
  induction xs with
  | nil => rw [nil_append,searchLeaf_cons,if_neg h,nil_append]
  | cons a xs ih => rw [cons_append,cons_append,searchLeaf_cons,searchLeaf_cons,ih]

theorem searchLeaf_hit (h : e.Covers x) (hx : ∀ e ∈ xs, ¬ e.Covers x) :
    searchLeaf (xs ++ e :: ys) x = e.physAt x := by
  rw [searchLeaf_append_left hx,searchLeaf_cons,if_pos h]

theorem not_covers_last : ¬ e.Covers 4294967295 := by
  intro h
  have := Nat.mod_lt (e.block + e.actualLen) (by decide : 4294967296 > 0)
  have := h.2
  omega

/-- `es'` maps `l` to `p` and everything else as `es` does. -/
def Updates (es es' : List Extent) (l p : Nat) : Prop :=
  ∀ x, searchLeaf es' x = if x = l then p else searchLeaf es x

theorem covers_single (hl : l + 1 < 4294967296) : (⟨l,1,0,p⟩ : Extent).Covers x ↔ x = l := by
  have : (⟨l,1,0,p⟩ : Extent).actualLen = 1 := rfl
  simp only [Extent.Covers,this,Nat.mod_eq_of_lt hl]
  omega

theorem updates_insert (hl : l + 1 < 4294967296) (hp : p < 4294967296)
    (hn : ∀ e ∈ xs ++ ys, ¬ e.Covers l) : Updates (xs ++ ys) (xs ++ ⟨l,1,0,p⟩ :: ys) l p := by
  intro x
  by_cases hx : x = l
  · subst hx
    rw [if_pos rfl,searchLeaf_hit ((covers_single hl).mpr rfl)
      fun e he => hn e (mem_append_left _ he)]
    simp only [Extent.physAt,Extent.start,Nat.sub_self,Nat.mul_zero,Nat.add_zero]
    exact Nat.mod_eq_of_lt hp
  · rw [if_neg hx,searchLeaf_skip fun h => hx ((covers_single hl).mp h)]

def Extent.longer (e : Extent) : Extent := { e with len := e.actualLen + 1 }

theorem actualLen_longer (h : e.actualLen < 32767) : e.longer.actualLen = e.actualLen + 1 := by
  have hlen : e.longer.len = e.actualLen + 1 := rfl
  rw [Extent.actualLen,hlen,if_neg (by omega)]

theorem updates_longer (hl : l + 1 < 4294967296) (hlen : e.actualLen < 32767)
    (hend : l = e.block + e.actualLen) (hp : p = (e.start + e.actualLen) % 4294967296)
    (hn : ∀ e' ∈ xs, ¬ e'.Covers l) : Updates (xs ++ [e]) (xs ++ [e.longer]) l p := by
  have hc : ∀ x, e.Covers x ↔ e.block ≤ x ∧ x < l := fun x => by
    rw [Extent.Covers,Nat.mod_eq_of_lt (by omega),hend]
  have hc' : ∀ x, e.longer.Covers x ↔ e.block ≤ x ∧ x < l + 1 := fun x => by
    have hb : e.longer.block = e.block := rfl
    rw [Extent.Covers,actualLen_longer hlen,hb,Nat.mod_eq_of_lt (by omega),hend,Nat.add_assoc]
  have hs : ∀ x, e.longer.physAt x = e.physAt x := fun _ => rfl
  intro x
  by_cases hx : x = l
  · subst hx
    rw [if_pos rfl,searchLeaf_hit ((hc' x).mpr ⟨by omega,by omega⟩) hn,hs,Extent.physAt,hp]
    congr 2
    omega
  · rw [if_neg hx]
    by_cases h : e.Covers x
    · have h' : e.longer.Covers x := (hc' x).mpr ⟨((hc x).mp h).1,by have := ((hc x).mp h).2; omega⟩
      apply searchLeaf_append_congr
      rw [searchLeaf_cons,searchLeaf_cons,if_pos h,if_pos h',hs]
    · have h' : ¬ e.longer.Covers x := fun h' => h ((hc x).mpr ⟨((hc' x).mp h').1,by
        have := ((hc' x).mp h').2
        omega⟩)
      rw [searchLeaf_skip h,searchLeaf_skip h']

theorem searchIndex_append :
    searchIndex (is ++ [i]) x = if i.block ≤ x then i.leaf else searchIndex is x := by
  simp [searchIndex]

theorem searchIndex_none (h : ∀ i ∈ is, x < i.block) : searchIndex is x = 0 := by
  induction is using List.reverseRecOn with
  | nil => rfl
  | append_singleton is i ih =>
    rw [searchIndex_append,if_neg (Nat.not_le.mpr (h i (by simp)))]
    exact ih fun j hj => h j (mem_append_left _ hj)

/-- The entry that `x` goes to: no later one has a key up to `x`. -/
def RoutesTo (is : List ExtentIdx) (x k : Nat) (i : ExtentIdx) : Prop :=
  is[k]? = some i ∧ i.block ≤ x ∧ ∀ k' i', k < k' → is[k']? = some i' → x < i'.block

theorem targetIdx_append :
    targetIdx (is ++ [i]) x = if i.block ≤ x then is.length else targetIdx is x := by
  unfold targetIdx
  rw [length_append,length_singleton,range_succ,foldl_append]
  simp only [foldl_cons,foldl_nil,getElem?_append_right .refl,Nat.sub_self,
    getElem?_cons_zero,Option.any_some,decide_eq_true_eq]
  congr 1
  apply foldl_ext
  intro t k hk
  rw [getElem?_append_left (mem_range.mp hk)]

theorem routes_or_none (is : List ExtentIdx) (x : Nat) :
    (∃ i, RoutesTo is x (targetIdx is x) i ∧ searchIndex is x = i.leaf) ∨
      (∀ i ∈ is, x < i.block) ∧ targetIdx is x = 0 := by
  induction is using List.reverseRecOn with
  | nil => exact .inr ⟨by simp,rfl⟩
  | append_singleton is i ih =>
    rw [targetIdx_append,searchIndex_append]
    by_cases h : i.block ≤ x
    · rw [if_pos h,if_pos h]
      refine .inl ⟨i,⟨by simp,h,fun k' i' hk hi' => ?_⟩,rfl⟩
      rw [getElem?_eq_none (by simp; omega)] at hi'
      cases hi'
    · rw [if_neg h,if_neg h]
      rcases ih with ⟨i',⟨hi',hle,hlast⟩,hs⟩ | ⟨hall,ht⟩
      · have hlt : targetIdx is x < is.length := (List.getElem?_eq_some_iff.mp hi').1
        refine .inl ⟨i',⟨?_,hle,fun k' j hk hj => ?_⟩,hs⟩
        · rwa [getElem?_append_left hlt]
        · by_cases hk' : k' < is.length
          · rw [getElem?_append_left hk'] at hj
            exact hlast k' j hk hj
          · obtain rfl : i = j := by
              have hlen := (List.getElem?_eq_some_iff.mp hj).1
              rw [length_append,length_singleton] at hlen
              rw [getElem?_append_right (by omega),
                show k' - is.length = 0 by omega] at hj
              exact Option.some.inj hj
            exact Nat.not_le.mp h
      · refine .inr ⟨fun j hj => ?_,ht⟩
        rcases mem_append.mp hj with hj | hj
        · exact hall j hj
        · rw [mem_singleton.mp hj]
          exact Nat.not_le.mp h

section Blocks

variable {b : Bytes} {k n : Nat} {src : List UInt8}

theorem extentIn_put_other (h : 12 + 12 * k + 12 ≤ o ∨ o + src.length ≤ 12 + 12 * k) :
    extentIn (put b o src) k = extentIn b k := by
  simp only [extentIn]
  rw [le32_put_other (by omega),le16_put_other (by omega),le16_put_other (by omega),
    le32_put_other (by omega)]

/-- `b'` has the header of `b` but for the number of entries. -/
structure SameHeader (b b' : Bytes) : Prop where
  magic : le16 b' 0 = le16 b 0
  max : le16 b' 4 = le16 b 4
  depth : le16 b' 6 = le16 b 6

theorem sameHeader_put (h : 8 ≤ o ∨ o = 2 ∧ src.length = 2) : SameHeader b (put b o src) where
  magic := le16_put_other (by omega)
  max := le16_put_other (by omega)
  depth := le16_put_other (by omega)

theorem SameHeader.trans (h : SameHeader b b') (h' : SameHeader b' b'') :
    SameHeader b b'' := ⟨h'.magic.trans h.magic,h'.max.trans h.max,h'.depth.trans h.depth⟩

theorem appendExtent_header : SameHeader b (appendExtent b l p) := by
  unfold appendExtent
  refine .trans ?_ (sameHeader_put (.inr ⟨rfl,rfl⟩))
  refine .trans ?_ (sameHeader_put (by omega))
  refine .trans ?_ (sameHeader_put (by omega))
  exact .trans (sameHeader_put (by omega)) (sameHeader_put (by omega))

theorem appendExtent_entries (h : le16 b 2 + 1 < 65536) :
    le16 (appendExtent b l p) 2 = le16 b 2 + 1 := by
  unfold appendExtent
  rw [le16_put_self,Nat.mod_eq_of_lt h]

theorem extentIn_append_lt (h : k < le16 b 2) : extentIn (appendExtent b l p) k = extentIn b k := by
  unfold appendExtent
  rw [extentIn_put_other (.inr (by simp; omega)),extentIn_put_other (by omega),
    extentIn_put_other (by omega),extentIn_put_other (by omega),
    extentIn_put_other (by omega)]

theorem extentIn_append_last (hl : l < 4294967296) (hp : p < 4294967296) :
    extentIn (appendExtent b l p) (le16 b 2) = ⟨l,1,0,p⟩ := by
  unfold appendExtent
  rw [extentIn_put_other (.inr (by simp; omega))]
  simp only [extentIn,Extent.mk.injEq]
  refine ⟨?_,?_,?_,?_⟩
  · rw [le32_put_other (by omega),le32_put_other (by omega),
      le32_put_other (by omega),le32_put_self,Nat.mod_eq_of_lt hl]
  · rw [le16_put_other (by omega),le16_put_other (by omega),le16_put_self]
  · rw [le16_put_other (by omega),le16_put_self]
  · rw [le32_put_self,Nat.mod_eq_of_lt hp]

theorem extentsIn_append (hn : le16 b 2 + 1 < 65536) (hl : l < 4294967296) (hp : p < 4294967296) :
    extentsIn (appendExtent b l p) = extentsIn b ++ [⟨l,1,0,p⟩] := by
  simp only [extentsIn,blockHeader,appendExtent_entries hn,range_succ,map_append,
    map_cons,map_nil,extentIn_append_last hl hp]
  congr 1
  exact map_congr_left fun k hk => extentIn_append_lt (mem_range.mp hk)

theorem idxIn_eq : idxIn b k = ⟨(extentIn b k).block,(extentIn b k).len + 65536 * (extentIn b k).startHi,
    (extentIn b k).startLo % 65536⟩ := by
  have h1 := le16_of_le32 (b := b) (o := 12 + 12 * k + 4)
  have h2 := le16_of_le32 (b := b) (o := 12 + 12 * k + 8)
  simp only [idxIn,extentIn,ExtentIdx.mk.injEq,true_and]
  refine ⟨?_,h2.1⟩
  rw [h1.1,show 12 + 12 * k + 6 = 12 + 12 * k + 4 + 2 from rfl,h1.2]
  omega

theorem indicesIn_append (hn : le16 b 2 + 1 < 65536) (hl : l < 4294967296) (hp : p < 4294967296) :
    indicesIn (appendExtent b l p) = indicesIn b ++ [⟨l,1,p % 65536⟩] := by
  simp only [indicesIn,blockHeader,appendExtent_entries hn,range_succ,map_append,map_cons,map_nil]
  congr 1
  · refine map_congr_left fun k hk => ?_
    rw [idxIn_eq,idxIn_eq,extentIn_append_lt (mem_range.mp hk)]
  · rw [idxIn_eq,extentIn_append_last hl hp]
    rfl

theorem growLast_header : SameHeader b (growLast b) := sameHeader_put (by omega)

theorem extentsIn_growLast (hn : le16 b 2 = n + 1) (hlen : (extentIn b n).actualLen < 32767) :
    extentsIn b = (List.range n).map (extentIn b) ++ [extentIn b n] ∧
      extentsIn (growLast b) = (List.range n).map (extentIn b) ++ [(extentIn b n).longer] := by
  have he : le16 (growLast b) 2 = n + 1 := by
    rw [growLast,le16_put_other (by omega),hn]
  have hlast : extentIn (growLast b) n = (extentIn b n).longer := by
    rw [growLast,hn]
    simp only [Nat.add_sub_cancel,extentIn,Extent.longer,Extent.mk.injEq]
    refine ⟨?_,?_,?_,?_⟩
    · rw [le32_put_other (by omega)]
    · rw [le16_put_self,Nat.mod_eq_of_lt]
      simp only [extentIn] at hlen
      omega
    · rw [le16_put_other (.inr (by simp))]
    · rw [le32_put_other (.inr (by simp))]
  refine ⟨?_,?_⟩
  · simp only [extentsIn,blockHeader,hn,range_succ,map_append,map_cons,map_nil]
  · simp only [extentsIn,blockHeader,he,range_succ,map_append,map_cons,map_nil,hlast]
    congr 1
    refine map_congr_left fun k hk => ?_
    have := mem_range.mp hk
    rw [growLast,hn,extentIn_put_other (by omega)]

variable {c : Bytes}

theorem blockHeader_of_bytes (h : ∀ i < 12, b i = c i) : blockHeader b = blockHeader c := by
  simp only [blockHeader]
  rw [le16_congr fun k hk => h (0 + k) (by omega),le16_congr fun k hk => h (2 + k) (by omega),
    le16_congr fun k hk => h (4 + k) (by omega),le16_congr fun k hk => h (6 + k) (by omega)]

theorem blockHeader_putHeader {entries max depth : Nat} :
    blockHeader (putHeader b entries max depth) = ⟨extMagic,entries % 65536,max % 65536,depth % 65536⟩ := by
  simp only [blockHeader,putHeader,ExtentHeader.mk.injEq]
  refine ⟨?_,?_,?_,?_⟩
  · rw [le16_put_other (by omega),le16_put_other (by omega),
      le16_put_other (by omega),le16_put_other (by omega),le16_put_self]
    rfl
  · rw [le16_put_other (by omega),le16_put_other (by omega),
      le16_put_other (by omega),le16_put_self]
  · rw [le16_put_other (by omega),le16_put_other (by omega),le16_put_self]
  · rw [le16_put_other (by omega),le16_put_self]

theorem extentsIn_lowerHalf : extentsIn (lowerHalf b) = (extentsIn b).take (le16 b 2 / 2) := by
  have hn := le16_lt (b := b) (o := 2)
  have he : le16 (lowerHalf b) 2 = le16 b 2 / 2 := by
    rw [lowerHalf,le16_put_self,Nat.mod_eq_of_lt (by omega)]
  simp only [extentsIn,blockHeader,he]
  rw [← map_take,take_range,Nat.min_eq_left (by omega)]
  exact map_congr_left fun k _ => extentIn_put_other (.inr (by simp; omega))

theorem extentIn_of_bytes
    (h : ∀ j < 12, b (12 + 12 * k + j) = c (12 + 12 * k' + j)) : extentIn b k = extentIn c k' := by
  have hat : ∀ m n, m + n ≤ 12 → ∀ j < n, b (12 + 12 * k + m + j) = c (12 + 12 * k' + m + j) := by
    intro m n hm j hj
    rw [Nat.add_assoc,Nat.add_assoc _ m]
    exact h (m + j) (by omega)
  simp only [extentIn]
  rw [le32_shift fun j hj => h j (by omega),le16_shift (hat 4 2 (by omega)),
    le16_shift (hat 6 2 (by omega)),le32_shift (hat 8 4 (by omega))]

/-- A loop that writes the entries one after the other leaves the header alone, and
each entry as it was written. -/
theorem foldl_entries (f : Bytes → Nat → Bytes) (g : Nat → Nat → UInt8)
    (hout : ∀ b k i, i < 12 + 12 * k ∨ 12 + 12 * k + 12 ≤ i → f b k i = b i)
    (hin : ∀ b k j, j < 12 → f b k (12 + 12 * k + j) = g k j) (n : Nat) :
    (∀ i < 12, (List.range n).foldl f b i = b i) ∧
      ∀ k < n, ∀ j < 12, (List.range n).foldl f b (12 + 12 * k + j) = g k j := by
  induction n with
  | zero => exact ⟨fun _ _ => rfl,fun _ h => absurd h (Nat.not_lt_zero _)⟩
  | succ n ih =>
    simp only [range_succ,foldl_append,foldl_cons,foldl_nil]
    refine ⟨fun i hi => (hout _ _ _ (by omega)).trans (ih.1 i hi),fun k hk j hj => ?_⟩
    by_cases hkn : k = n
    · subst hkn
      exact hin _ _ _ hj
    · exact (hout _ _ _ (by omega)).trans (ih.2 k (by omega) j hj)

section Halves

theorem upperHalf_bytes (v : Volume) : (∀ i < 12, upperHalf v b i =
        putHeader zeroBytes (le16 b 2 - le16 b 2 / 2) (maxEntries v) 0 i) ∧
      ∀ k < le16 b 2 - le16 b 2 / 2, ∀ j < 12,
        upperHalf v b (12 + 12 * k + j) = b (12 + 12 * (le16 b 2 / 2 + k) + j) :=
  foldl_entries (fun c k => splice c (12 + 12 * k) b (12 + 12 * (le16 b 2 / 2 + k)) 12)
    (fun k j => b (12 + 12 * (le16 b 2 / 2 + k) + j)) (fun _ _ _ h => splice_other h)
    (fun c k j hj => by rw [splice_in (by omega),Nat.add_sub_cancel_left]) _

theorem blockHeader_upperHalf (v : Volume) : blockHeader (upperHalf v b) =
    ⟨extMagic,le16 b 2 - le16 b 2 / 2,maxEntries v % 65536,0⟩ := by
  have hn := le16_lt (b := b) (o := 2)
  rw [blockHeader_of_bytes (upperHalf_bytes v).1,blockHeader_putHeader,
    Nat.mod_eq_of_lt (by omega : le16 b 2 - le16 b 2 / 2 < 65536)]

theorem extentsIn_upperHalf (v : Volume) :
    extentsIn (upperHalf v b) = (extentsIn b).drop (le16 b 2 / 2) := by
  simp only [extentsIn,blockHeader_upperHalf]
  apply ext_getElem
  · simp [blockHeader]
  · intro k hk _
    rw [length_map,length_range] at hk
    simp only [getElem_map,getElem_range,getElem_drop]
    exact extentIn_of_bytes ((upperHalf_bytes v).2 k hk)

end Halves

theorem grownLeaf_bytes (v : Volume) (i : Inode) : (∀ o < 12, grownLeaf v i o =
        putHeader zeroBytes i.extentHeader.entries (maxEntries v) i.extentHeader.depth o) ∧
      ∀ k < i.extentHeader.entries, ∀ j < 12, grownLeaf v i (12 + 12 * k + j) =
        put zeroBytes (12 + 12 * k) (le32Bytes (i.words (3 + 3 * k)) ++
          le32Bytes (i.words (4 + 3 * k)) ++ le32Bytes (i.words (5 + 3 * k))) (12 + 12 * k + j) :=
  foldl_entries _ _ (fun b k o h => put_other (by simpa using h))
    (fun b k j hj => by rw [put_at j (by simpa using hj),put_at j (by simpa using hj)]) _

variable {i : Inode}

theorem blockHeader_grownLeaf (v : Volume) (hn : i.extentHeader.entries < 65536)
    (hd : i.extentHeader.depth < 65536) : blockHeader (grownLeaf v i) =
      ⟨extMagic,i.extentHeader.entries,maxEntries v % 65536,i.extentHeader.depth⟩ := by
  rw [blockHeader_of_bytes (grownLeaf_bytes v i).1,blockHeader_putHeader,Nat.mod_eq_of_lt hn,
    Nat.mod_eq_of_lt hd]

theorem extentIn_put_words (h0 : w0 < 4294967296) (h1 : w1 < 4294967296) (h2 : w2 < 4294967296) :
    extentIn (put b (12 + 12 * k) (le32Bytes w0 ++ le32Bytes w1 ++ le32Bytes w2)) k =
      ⟨w0,w1 % 65536,w1 / 65536,w2⟩ := by
  rw [put_append,put_append]
  simp only [length_append,length_le32Bytes]
  have h4 : le32 (put (put (put b (12 + 12 * k) (le32Bytes w0)) (12 + 12 * k + 4) (le32Bytes w1))
      (12 + 12 * k + 8) (le32Bytes w2)) (12 + 12 * k + 4) = w1 := by
    rw [le32_put_other (by omega),le32_put_self,Nat.mod_eq_of_lt h1]
  simp only [extentIn,Extent.mk.injEq]
  refine ⟨?_,?_,?_,?_⟩
  · rw [le32_put_other (by omega),le32_put_other (by omega),le32_put_self,
      Nat.mod_eq_of_lt h0]
  · rw [le16_of_le32.1,h4]
  · rw [show 12 + 12 * k + 6 = 12 + 12 * k + 4 + 2 from rfl,le16_of_le32.2,h4]
  · rw [le32_put_self,Nat.mod_eq_of_lt h2]

theorem extentsIn_grownLeaf (v : Volume) (hn : i.extentHeader.entries < 65536)
    (hd : i.extentHeader.depth < 65536)
    (hw : ∀ k < i.extentHeader.entries, i.words (3 + 3 * k) < 4294967296 ∧
      i.words (4 + 3 * k) < 4294967296 ∧ i.words (5 + 3 * k) < 4294967296) :
    extentsIn (grownLeaf v i) = i.extents := by
  simp only [extentsIn,blockHeader_grownLeaf v hn hd,extents]
  refine map_congr_left fun k hk => ?_
  rw [extentIn_of_bytes ((grownLeaf_bytes v i).2 k (mem_range.mp hk))]
  obtain ⟨h0,h1,h2⟩ := hw k (mem_range.mp hk)
  exact extentIn_put_words h0 h1 h2

end Blocks

namespace Inode

variable {i : Inode} {b : Nat}

theorem words_setWord : (i.setWord k a).words m = if m = k then a else i.words m :=
  Function.update_apply _ _ _ _

theorem words_setEntry (hk : k < 4) : (i.setEntry k a b c).words m =
    if m = 5 + 3 * k then c else if m = 4 + 3 * k then b else if m = 3 + 3 * k then a
      else i.words m := by
  simp [setEntry,hk,words_setWord]

theorem extentHeader_setWord (h : 1 < k) : (i.setWord k a).extentHeader = i.extentHeader := by
  simp [extentHeader,words_setWord,Nat.ne_of_lt h,Nat.ne_of_lt (Nat.zero_lt_of_lt h)]

theorem extentHeader_setEntry : (i.setEntry k a b c).extentHeader = i.extentHeader := by
  unfold setEntry
  split
  · rw [extentHeader_setWord (by omega),extentHeader_setWord (by omega),extentHeader_setWord (by omega)]
  · rfl

theorem words_setEntry_entry (hk : k < 4) :
    (i.setEntry k a b c).words (3 + 3 * m) = (if m = k then a else i.words (3 + 3 * m)) ∧
      (i.setEntry k a b c).words (4 + 3 * m) = (if m = k then b else i.words (4 + 3 * m)) ∧
      (i.setEntry k a b c).words (5 + 3 * m) = if m = k then c else i.words (5 + 3 * m) := by
  simp only [words_setEntry hk]
  by_cases h : m = k
  · subst h
    refine ⟨?_,?_,?_⟩
    · rw [if_neg (by omega),if_neg (by omega),if_pos rfl,if_pos rfl]
    · rw [if_neg (by omega),if_pos rfl,if_pos rfl]
    · rw [if_pos rfl,if_pos rfl]
  · rw [if_neg h,if_neg h,if_neg h]
    refine ⟨?_,?_,?_⟩ <;> rw [if_neg (by omega),if_neg (by omega),if_neg (by omega)]

theorem extentAt_setEntry (hk : k < 4) : (i.setEntry k a b c).extentAt m =
    if m = k then ⟨a,b % 65536,b / 65536,c⟩ else i.extentAt m := by
  obtain ⟨h0,h1,h2⟩ := words_setEntry_entry (i := i) (m := m) (a := a) (b := b) (c := c) hk
  simp only [extentAt,h0,h1,h2]
  split <;> rfl

theorem extentIdxAt_setEntry (hk : k < 4) : (i.setEntry k a b c).extentIdxAt m =
    if m = k then ⟨a,b,c % 65536⟩ else i.extentIdxAt m := by
  obtain ⟨h0,h1,h2⟩ := words_setEntry_entry (i := i) (m := m) (a := a) (b := b) (c := c) hk
  simp only [extentIdxAt,h0,h1,h2]
  split <;> rfl

theorem extentAt_setExtentAtRaw (hk : k < 4) (he : e.len < 65536) :
    (i.setExtentAtRaw k e).extentAt m = if m = k then e else i.extentAt m := by
  have h1 : (e.len + 65536 * e.startHi) % 65536 = e.len := by omega
  have h2 : (e.len + 65536 * e.startHi) / 65536 = e.startHi := by omega
  rw [setExtentAtRaw,extentAt_setEntry hk,h1,h2]

theorem extentHeader_setExtentEntries : (i.setExtentEntries n).extentHeader =
    { i.extentHeader with entries := n % 65536 } := by
  have h0 : (i.setExtentEntries n).words 0 = i.words 0 % 65536 + 65536 * (n % 65536) := by
    rw [setExtentEntries,words_setWord,if_pos rfl]
  have h1 : (i.setExtentEntries n).words 1 = i.words 1 := by
    rw [setExtentEntries,words_setWord,if_neg (by decide)]
  simp only [extentHeader,h0,h1,ExtentHeader.mk.injEq,and_true]
  omega

theorem extentHeader_setExtentDepth : (i.setExtentDepth n).extentHeader =
    { i.extentHeader with depth := n % 65536 } := by
  have h0 : (i.setExtentDepth n).words 0 = i.words 0 := by
    rw [setExtentDepth,words_setWord,if_neg (by decide)]
  have h1 : (i.setExtentDepth n).words 1 = i.words 1 % 65536 + 65536 * (n % 65536) := by
    rw [setExtentDepth,words_setWord,if_pos rfl]
  simp only [extentHeader,h0,h1,ExtentHeader.mk.injEq,true_and]
  omega

theorem extentAt_setExtentEntries : (i.setExtentEntries n).extentAt m = i.extentAt m := by
  simp only [extentAt,setExtentEntries,words_setWord]
  rw [if_neg (by omega),if_neg (by omega),if_neg (by omega)]

theorem extentIdxAt_setExtentEntries : (i.setExtentEntries n).extentIdxAt m = i.extentIdxAt m := by
  simp only [extentIdxAt,setExtentEntries,words_setWord]
  rw [if_neg (by omega),if_neg (by omega),if_neg (by omega)]

theorem extentHeader_setExtentLenAt : (i.setExtentLenAt k n).extentHeader = i.extentHeader := by
  unfold setExtentLenAt
  split
  · exact extentHeader_setWord (by omega)
  · rfl

theorem extentAt_setExtentLenAt (hk : k < 4) (hn : n < 65536) : (i.setExtentLenAt k n).extentAt m =
    if m = k then { i.extentAt k with len := n } else i.extentAt m := by
  simp only [setExtentLenAt,hk,↓reduceIte,extentAt,words_setWord]
  by_cases h : m = k
  · subst h
    rw [if_neg (by omega),if_pos rfl,if_neg (by omega),if_pos rfl]
    simp only [Extent.mk.injEq,true_and,and_true]
    omega
  · rw [if_neg (by omega),if_neg (by omega),if_neg (by omega),if_neg h]

theorem extents_setExtentLenAt (hn : i.extentHeader.entries = n + 1) (h4 : n < 4)
    (hlen : (i.extentAt n).actualLen < 32767) :
    i.extents = (List.range n).map i.extentAt ++ [i.extentAt n] ∧
      (i.setExtentLenAt n ((i.extentAt n).actualLen + 1)).extents =
        (List.range n).map i.extentAt ++ [(i.extentAt n).longer] := by
  have hat : ∀ m, (i.setExtentLenAt n ((i.extentAt n).actualLen + 1)).extentAt m =
      if m = n then (i.extentAt n).longer else i.extentAt m :=
    fun m => extentAt_setExtentLenAt h4 (by omega)
  simp only [extents,extentHeader_setExtentLenAt,hn,range_succ,map_append,map_cons,
    map_nil,true_and]
  rw [hat,if_pos rfl]
  refine congrArg (· ++ _) (map_congr_left fun m hm => (hat m).trans (if_neg ?_))
  have := mem_range.mp hm
  omega

/-- The shift moves entry by entry, from the last one down. -/
theorem extentAt_foldl_shift (pos c : Nat) (hc : pos + c < 4) (i : Inode) :
    let s := (List.range' pos c).reverse.foldl (fun i k => i.setExtentAtRaw (k + 1) (i.extentAt k)) i
    s.extentHeader = i.extentHeader ∧
      ∀ m, s.extentAt m = if pos < m ∧ m ≤ pos + c then i.extentAt (m - 1) else i.extentAt m := by
  induction c generalizing i with
  | zero =>
    refine ⟨rfl,fun m => ?_⟩
    rw [if_neg (by omega)]
    rfl
  | succ c ih =>
    have hat : ∀ m, (i.setExtentAtRaw (pos + c + 1) (i.extentAt (pos + c))).extentAt m =
        if m = pos + c + 1 then i.extentAt (pos + c) else i.extentAt m :=
      fun m => extentAt_setExtentAtRaw (by omega) (Nat.mod_lt _ (by decide))
    rw [range'_concat,reverse_append,reverse_singleton,singleton_append,foldl_cons,Nat.one_mul]
    obtain ⟨hh,hm⟩ := ih (by omega) (i.setExtentAtRaw (pos + c + 1) (i.extentAt (pos + c)))
    refine ⟨hh.trans extentHeader_setEntry,fun m => (hm m).trans ?_⟩
    rw [hat,hat]
    by_cases h : m = pos + c + 1
    · subst h
      rw [if_neg (by omega),if_pos rfl,if_pos (by omega)]
      rfl
    · by_cases h' : pos < m ∧ m ≤ pos + c
      · rw [if_pos h',if_neg (by omega),if_pos (by omega)]
      · rw [if_neg h',if_neg h,if_neg (by omega)]

theorem extents_insertExtentAt (h4 : i.extentHeader.entries < 4)
    (hpos : pos ≤ i.extentHeader.entries) :
    ∃ xs ys, i.extents = xs ++ ys ∧ (i.insertExtentAt pos l p).extents = xs ++ ⟨l,1,0,p⟩ :: ys := by
  obtain ⟨c,hn⟩ := Nat.exists_eq_add_of_le hpos
  obtain ⟨hh,hm⟩ := extentAt_foldl_shift pos c (by omega) i
  have hshift : i.shiftExtents pos i.extentHeader.entries = (List.range' pos c).reverse.foldl
      (fun i k => i.setExtentAtRaw (k + 1) (i.extentAt k)) i := by
    rw [shiftExtents,hn,Nat.add_sub_cancel_left]
  have hent : (i.insertExtentAt pos l p).extentHeader.entries = pos + c + 1 := by
    simp only [insertExtentAt,extentHeader_setExtentEntries]
    omega
  have hat : ∀ m, (i.insertExtentAt pos l p).extentAt m = if m = pos then ⟨l,1,0,p⟩ else
      if pos < m ∧ m ≤ pos + c then i.extentAt (m - 1) else i.extentAt m := fun m => by
    simp only [insertExtentAt,extentAt_setExtentEntries]
    rw [extentAt_setExtentAtRaw (by omega) (show 1 < 65536 by decide),hshift,hm]
  refine ⟨(List.range pos).map i.extentAt,(List.range c).map fun k => i.extentAt (pos + k),?_,?_⟩
  · rw [extents,hn,range_add,map_append,List.map_map]
    rfl
  · have hsplit : List.range (pos + c + 1) =
        List.range pos ++ pos :: (List.range c).map fun k => pos + k + 1 := by
      rw [Nat.add_assoc,range_add,range_succ_eq_map,map_cons,List.map_map]
      rfl
    rw [extents,hent,hsplit,map_append,map_cons,List.map_map,hat,if_pos rfl]
    congr 1
    · refine map_congr_left fun m hm => ?_
      have := mem_range.mp hm
      rw [hat,if_neg (by omega),if_neg (by omega)]
    · congr 1
      refine map_congr_left fun m hm => ?_
      have := mem_range.mp hm
      rw [Function.comp_apply,hat,if_neg (by omega),if_pos (by omega),Nat.add_sub_cancel]

theorem extentHeader_foldl_clear (ks : List Nat) (i : Inode) :
    (ks.foldl (fun i k => i.setEntry k 0 0 0) i).extentHeader = i.extentHeader := by
  induction ks generalizing i with
  | nil => rfl
  | cons k ks ih => exact (ih _).trans extentHeader_setEntry

end Inode

variable {i : Inode}

theorem grownRoot_spec (hd : i.extentHeader.depth < 65535) :
    (grownRoot i b).extentHeader = ⟨i.extentHeader.magic,1,i.extentHeader.max,i.extentHeader.depth + 1⟩ ∧
      (grownRoot i b).indices =
        [⟨if 0 < i.extentHeader.entries then (i.extentAt 0).block else 0,b,0⟩] := by
  have hh : (grownRoot i b).extentHeader =
      ⟨i.extentHeader.magic,1,i.extentHeader.max,i.extentHeader.depth + 1⟩ := by
    simp only [grownRoot,setExtentIdxAtRaw,extentHeader_setEntry,
      extentHeader_setExtentEntries,extentHeader_setExtentDepth,
      extentHeader_foldl_clear,Nat.mod_eq_of_lt (by omega : i.extentHeader.depth + 1 < 65536)]
  refine ⟨hh,?_⟩
  simp only [indices,hh,range_one,map_cons,map_nil]
  simp only [grownRoot,setExtentIdxAtRaw]
  rw [extentIdxAt_setEntry (by decide),if_pos rfl]

theorem linkLeaf_spec (h4 : i.extentHeader.max ≤ 4) :
    (linkLeaf i a b).extentHeader.magic = i.extentHeader.magic ∧
      (linkLeaf i a b).extentHeader.depth = i.extentHeader.depth ∧ (linkLeaf i a b).indices =
        if i.extentHeader.entries < i.extentHeader.max then i.indices ++ [⟨a,b,0⟩] else i.indices := by
  by_cases h : i.extentHeader.entries < i.extentHeader.max
  · have hlink : linkLeaf i a b = (i.setEntry i.extentHeader.entries a b 0).setExtentEntries
        (i.extentHeader.entries + 1) := if_pos h
    have hat : ∀ m, (linkLeaf i a b).extentIdxAt m =
        if m = i.extentHeader.entries then ⟨a,b,0⟩ else i.extentIdxAt m := fun m => by
      rw [hlink,extentIdxAt_setExtentEntries,extentIdxAt_setEntry (by omega)]
    have hh : (linkLeaf i a b).extentHeader =
        { i.extentHeader with entries := i.extentHeader.entries + 1 } := by
      rw [hlink,extentHeader_setExtentEntries,extentHeader_setEntry,Nat.mod_eq_of_lt (by omega)]
    refine ⟨by rw [hh],by rw [hh],?_⟩
    rw [if_pos h]
    simp only [indices,hh,range_succ,map_append,map_cons,map_nil]
    rw [hat,if_pos rfl]
    refine congrArg (· ++ _) (map_congr_left fun m hm => (hat m).trans (if_neg ?_))
    have := mem_range.mp hm
    omega
  · simp [linkLeaf,h]

theorem extentHeader_addBlocks : (addBlocks v i).extentHeader = i.extentHeader := rfl

theorem indices_addBlocks : (addBlocks v i).indices = i.indices := rfl

end Miku.Ext
