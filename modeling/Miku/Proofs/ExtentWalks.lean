import Mathlib.Algebra.Ring.Nat
import Miku.Ext.ExtentWalk
import Miku.Proofs.Allocator
import Miku.Proofs.ExtentNodes

namespace Miku.Ext.Walk
open Lib List

/-- Neither the logical nor the physical blocks of an extent run past 32 bits. -/
def LeafFits (es : List Extent) : Prop :=
  ∀ e ∈ es, e.block + e.actualLen < u32 ∧ e.start % u32 + e.actualLen ≤ u32

/-- The entries of a block are in its buffer. -/
def NodeFits (depth : Nat) (buf : Bytes) : Prop :=
  le16 buf 2 ≤ 340 ∧ (depth = 0 → LeafFits (extentsIn buf))

/-- `P` holds of a block at height `depth` and of all below it. -/
def Every (R : Nat → Except FsError Bytes) (P : Nat → Nat → Prop) : Nat → Nat → Prop
  | 0, b => P 0 b
  | depth + 1, b => P (depth + 1) b ∧ ∀ buf, R b = .ok buf →
      ∀ e ∈ indicesIn buf, e.leaf ≠ 0 → Every R P depth (e.leaf % u32)

def leafSize (es : List Extent) : Nat := (es.map Extent.actualLen).sum

/-- How many blocks children name, with what is below them. -/
def indexSize (below : Nat → Nat) (is : List ExtentIdx) : Nat :=
  (is.map fun e => if e.leaf % u32 = 0 then 0 else below (e.leaf % u32) + 1).sum

/-- How many blocks are below block `b`, those in the tree twice counted twice. -/
def size (R : Nat → Except FsError Bytes) : Nat → Nat → Nat
  | depth, b =>
    match R b with
    | .error _ => 0
    | .ok buf =>
      match depth with
      | 0 => leafSize (extentsIn buf)
      | depth + 1 => indexSize (size R depth) (indicesIn buf)

def treeSize (R : Nat → Except FsError Bytes) (i : Inode) : Nat :=
  match i.extentHeader.depth with
  | 0 => leafSize i.extents
  | depth + 1 => indexSize (size R depth) i.indices

variable {σ : Type}

/-- `s'` is `s` with some blocks freed. -/
def Freed (D : Device σ) (s s' : σ) : Prop := ∃ bs : List Nat, s' = bs.foldl D.freeBlock s

/-- Block `b` fits a buffer and stays as it is while blocks are freed. -/
def Settled (D : Device σ) (s : σ) (b : Nat) : Prop :=
  ∀ s', Freed D s s' → D.blockSize s' ≤ 4096 ∧ D.readBlockInto s' b = D.readBlockInto s b

def Fits (D : Device σ) (s : σ) (depth b : Nat) : Prop :=
  ∀ buf, D.readBlockInto s b = .ok buf → NodeFits depth buf

/-- What the walks need of a block at height `d` they reach by calls from height `top` on:
a stack frame, a buffer it fits and no change while blocks are freed, as a bitmap has one. -/
def Held (D : Device σ) (s : σ) (frames top d b : Nat) : Prop :=
  top < d + frames ∧ Settled D s b ∧ Fits D s d b

/-- A tree whose nodes have no more entries than fit, no extent past 32 bits, none deeper
than the stack has room for and less than `2 ^ 32` blocks. -/
structure Sound (D : Device σ) (s : σ) (frames : Nat) (i : Inode) : Prop where
  entries : i.extentHeader.entries ≤ 17
  leaf : i.extentHeader.depth = 0 → LeafFits i.extents
  nodes : ∀ depth, i.extentHeader.depth = depth + 1 → ∀ e ∈ i.indices, e.leaf ≠ 0 →
    Every (D.readBlockInto s) (Held D s frames depth) depth (e.leaf % u32)
  few : treeSize (D.readBlockInto s) i < u32

variable {D : Device σ} {s : σ} {i : Inode} {l : Nat}

theorem within_eq {α : Type} {limit stop : Nat} {a : α} (h : stop ≤ limit) :
    within limit stop a = .ok a := if_pos h

/-- The child of an entry of a block has no more than 32 bits of its own. -/
theorem leaf_idxIn : (idxIn buf k).leaf % u32 = (idxIn buf k).leafLo := by
  have h0 := le16_lt (b := buf) (o := 12 + 12 * k + 4)
  have h1 := le16_lt (b := buf) (o := 12 + 12 * k + 4 + 2)
  simp only [ExtentIdx.leaf,idxIn,le32,u32]
  omega

theorem start_extentIn : (extentIn buf k).start % u32 = (extentIn buf k).startLo := by
  have h0 := le16_lt (b := buf) (o := 12 + 12 * k + 8)
  have h1 := le16_lt (b := buf) (o := 12 + 12 * k + 8 + 2)
  simp only [Extent.start,extentIn,le32,u32]
  omega

theorem leaf_ne_zero {e : ExtentIdx} (h : e.leaf % u32 ≠ 0) : e.leaf ≠ 0 := fun hz =>
  h (by rw [hz]; rfl)

theorem extentAt_eq (h : k < 340) : extentAt buf k = .ok (extentIn buf k) := within_eq (by omega)

theorem idxAt_eq (h : k < 340) : idxAt buf k = .ok (idxIn buf k) := within_eq (by omega)

theorem runAt_eq (h : k < 340) :
    runAt buf k = .ok ((extentIn buf k).start % u32,(extentIn buf k).actualLen) := by
  rw [start_extentIn]
  exact within_eq (by omega)

theorem childAt_eq (h : k < 340) : childAt buf k = .ok ((idxIn buf k).leaf % u32) := by
  rw [leaf_idxIn]
  exact within_eq (by omega)

theorem rootExtentAt_eq (h : k < 17) : rootExtentAt i k = .ok (i.extentAt k) := within_eq (by omega)

theorem rootIdxAt_eq (h : k < 17) : rootIdxAt i k = .ok (i.extentIdxAt k) := within_eq (by omega)

theorem rootRunAt_eq (h : k < 17) :
    rootRunAt i k = .ok ((i.extentAt k).start % u32,(i.extentAt k).actualLen) := by
  rw [rootRunAt,rootExtentAt_eq h]
  rfl

theorem rootChildAt_eq (h : k < 17) : rootChildAt i k = .ok ((i.extentIdxAt k).leaf % u32) := by
  rw [rootChildAt,rootIdxAt_eq h]
  rfl

section Lookup

variable {ks : List Nat}

theorem covers_eq {e : Extent} (h : e.block + e.actualLen < u32) :
    covers e l = .ok (decide (e.Covers l)) := by
  have hc : e.Covers l ↔ e.block ≤ l ∧ l < e.block + e.actualLen := by
    rw [Extent.Covers,show (e.block + e.actualLen) % 4294967296 = _ from Nat.mod_eq_of_lt h]
  unfold covers
  by_cases hb : e.block ≤ l
  · rw [if_pos hb,fit_eq h,ok_bind]
    exact congrArg Except.ok (decide_eq_decide.2 (by rw [hc,and_iff_right hb]))
  · rw [if_neg hb,decide_eq_false fun hl => hb (hc.1 hl).1]
    rfl

theorem searchLeaf_ends {at_ : Nat → Checked Extent} {f : Nat → Extent}
    (hat : ∀ k ∈ ks, at_ k = .ok (f k)) (hfit : LeafFits (ks.map f)) :
    searchLeaf at_ l ks = .ok (Ext.searchLeaf (ks.map f) l) := by
  induction ks with
  | nil => rfl
  | cons k ks ih =>
    have ih := ih (fun k hk => hat k (mem_cons_of_mem _ hk))
      fun e he => hfit e (mem_cons_of_mem _ he)
    have hk := (hfit (f k) (by simp)).1
    rw [searchLeaf,hat k (by simp),ok_bind,covers_eq hk,ok_bind,ih,map_cons,searchLeaf_cons]
    by_cases hc : (f k).Covers l
    · rw [if_pos (decide_eq_true hc),if_pos hc]
      rfl
    · rw [if_neg (by simpa using hc),if_neg hc]

theorem searchIndex_ends {at_ : Nat → Checked ExtentIdx} {f : Nat → ExtentIdx}
    (hat : ∀ k ∈ ks, at_ k = .ok (f k)) :
    searchIndex at_ l ks 0 = .ok (Ext.searchIndex (ks.map f) l) := by
  suffices h : ∀ t, searchIndex at_ l ks t =
      .ok ((ks.map f).foldl (fun t e => if e.block ≤ l then e.leaf else t) t) from h 0
  induction ks with
  | nil => exact fun t => rfl
  | cons k ks ih =>
    intro t
    rw [searchIndex,hat k (by simp),ok_bind,ih fun k hk => hat k (mem_cons_of_mem _ hk)]
    rfl

theorem searchIndex_mem (h : Ext.searchIndex is l ≠ 0) :
    ∃ e ∈ is, e.leaf ≠ 0 ∧ Ext.searchIndex is l = e.leaf := by
  rcases routes_or_none is l with ⟨e,hr,he⟩ | ⟨hn,-⟩
  · exact ⟨e,mem_of_getElem? hr.1,he ▸ h,he⟩
  · exact absurd (searchIndex_none hn) h

end Lookup

section Nodes

variable {depth frames : Nat}

theorem Every.here (h : Every R P depth b) : P depth b := by
  cases depth with
  | zero => exact h
  | succ depth => exact h.1

theorem Every.imp (h : Every R P depth b) (hpq : ∀ d b, P d b → Q d b) : Every R Q depth b := by
  induction depth generalizing b with
  | zero => exact hpq 0 b h
  | succ depth ih => exact ⟨hpq _ b h.1,fun buf hb e he hne => ih (h.2 buf hb e he hne)⟩

/-- One call further down there is one frame less. -/
theorem Every.below (h : Every R (Held D s (frames + 1) (depth + 1)) (depth + 1) b)
    (hb : R b = .ok buf) {e : ExtentIdx} (he : e ∈ indicesIn buf) (hne : e.leaf ≠ 0) :
    Every R (Held D s frames depth) depth (e.leaf % u32) :=
  (h.2 buf hb e he hne).imp fun _ _ h => ⟨by have := h.1; omega,h.2⟩

theorem Held.frames_pos (h : Held D s frames depth depth b) : 0 < frames := by
  have := h.1
  omega

theorem Freed.refl : Freed D s s := ⟨[],rfl⟩

variable {β : Type} {fail : FsError → Checked β}

theorem onBlock_error {f : Bytes → Checked β} {e : FsError}
    (hs : D.blockSize s ≤ 4096) (hb : D.readBlockInto s b = .error e) :
    onBlock D s b fail f = fail e := by rw [onBlock,if_pos hs,hb]

theorem onBlock_ok {f : Bytes → Checked β}
    (hs : D.blockSize s ≤ 4096) (hb : D.readBlockInto s b = .ok buf) :
    onBlock D s b fail f = f buf := by rw [onBlock,if_pos hs,hb]

theorem NodeFits.reads (h : NodeFits depth buf) (hk : k ∈ List.range (le16 buf 2)) :
    k < 340 := Nat.lt_of_lt_of_le (mem_range.1 hk) h.1

/-- What a lookup finds from block `b` down. -/
def found (R : Nat → Except FsError Bytes) (l : Nat) : Nat → Nat → Except FsError Nat
  | depth, b =>
    match R b with
    | .error e => .error e
    | .ok buf =>
      if le16 buf 0 ≠ extMagic then .error .corruptedFs
      else
        match depth with
        | 0 => .ok (Ext.searchLeaf (extentsIn buf) l)
        | depth + 1 =>
          let t := Ext.searchIndex (indicesIn buf) l
          if t = 0 then .ok 0 else found R l depth (t % u32)

theorem found_volume {v : Volume} : found v.readBlock l depth b = v.searchExtentTree l depth b := by
  induction depth generalizing b with
  | zero =>
    unfold found Volume.searchExtentTree
    rfl
  | succ depth ih =>
    rw [found,Volume.searchExtentTree]
    simp only [ih]
    rfl

theorem searchExtentTree_ends
    (h : Every (D.readBlockInto s) (Held D s frames depth) depth b) :
    searchExtentTree D s l frames depth b = .ok (found (D.readBlockInto s) l depth b) := by
  induction frames generalizing depth b with
  | zero => exact absurd h.here.frames_pos (Nat.not_lt_zero _)
  | succ frames ih =>
    have hs := (h.here.2.1 s .refl).1
    rw [searchExtentTree,found]
    cases hb : D.readBlockInto s b with
    | error e =>
      rw [onBlock_error hs hb]
      rfl
    | ok buf =>
      have hfit := h.here.2.2 buf hb
      rw [onBlock_ok hs hb]
      by_cases hm : le16 buf 0 = extMagic
      · simp only [hm,ne_eq,not_true_eq_false,↓reduceIte]
        cases depth with
        | zero =>
          rw [if_pos rfl,searchLeaf_ends (fun k hk => extentAt_eq (hfit.reads hk)) (hfit.2 rfl)]
          rfl
        | succ depth =>
          rw [if_neg (Nat.succ_ne_zero depth),
            searchIndex_ends fun k hk => idxAt_eq (hfit.reads hk),ok_bind]
          change (if Ext.searchIndex (indicesIn buf) l = 0 then _
            else searchExtentTree D s l frames depth (Ext.searchIndex (indicesIn buf) l % u32)) =
            .ok (if Ext.searchIndex (indicesIn buf) l = 0 then _ else _)
          by_cases ht : Ext.searchIndex (indicesIn buf) l = 0
          · rw [if_pos ht,if_pos ht]
            rfl
          · obtain ⟨e,he,hne,heq⟩ := searchIndex_mem ht
            rw [if_neg ht,if_neg ht,heq]
            exact ih (h.below hb he hne)
      · simp only [hm,ne_eq,not_false_eq_true,↓reduceIte]
        rfl

theorem Freed.trans (h : Freed D s s') (h' : Freed D s' s'') : Freed D s s'' := by
  obtain ⟨bs,rfl⟩ := h
  obtain ⟨cs,rfl⟩ := h'
  exact ⟨bs ++ cs,foldl_append.symm⟩

theorem Freed.step : Freed D s (D.freeBlock s b) := ⟨[b],rfl⟩

/-- A walk from `s` that frees blocks, `n` of them if it does not fail. -/
def Frees (D : Device σ) (s : σ) (n : Nat) (r : Except FsError Nat × σ) : Prop :=
  Freed D s r.2 ∧ ∀ m, r.1 = .ok m → m = n

theorem freeRun_ends {start : Nat} {bs : List Nat} (hb : ∀ b ∈ bs, start + b < u32)
    (hn : freed + bs.length < u32) :
    Ends (freeRun D start bs freed s) fun r => Freed D s r.2 ∧ r.1 = freed + bs.length := by
  induction bs generalizing freed s with
  | nil => exact .pure ⟨.refl,rfl⟩
  | cons b bs ih =>
    rw [length_cons] at hn
    rw [freeRun,fit_eq (hb b (by simp)),ok_bind,fit_eq (by omega),ok_bind]
    refine (ih (fun c hc => hb c (mem_cons_of_mem _ hc)) (by omega)).imp fun r hr => ?_
    exact ⟨Freed.step.trans hr.1,by rw [hr.2,length_cons]; omega⟩

variable {f : Nat → Extent}

theorem freeLeaf_ends {at_ : Nat → Checked (Nat × Nat)}
    (hat : ∀ k ∈ ks, at_ k = .ok ((f k).start % u32,(f k).actualLen))
    (hfit : LeafFits (ks.map f)) (hn : freed + leafSize (ks.map f) < u32) :
    Ends (freeLeaf D at_ ks freed s) fun r =>
      Freed D s r.2 ∧ r.1 = freed + leafSize (ks.map f) := by
  induction ks generalizing freed s with
  | nil => exact .pure ⟨.refl,rfl⟩
  | cons k ks ih =>
    have hsize : leafSize ((k :: ks).map f) = (f k).actualLen + leafSize (ks.map f) := rfl
    rw [hsize] at hn ⊢
    have hk := (hfit (f k) (by simp)).2
    rw [freeLeaf,hat k (by simp),ok_bind]
    refine .seq (freeRun_ends (fun b hb => ?_) ?_) fun r hr => ?_
    · have := mem_range.1 hb
      omega
    · rw [length_range]
      omega
    · rw [length_range] at hr
      refine (ih (fun c hc => hat c (mem_cons_of_mem _ hc))
        (fun e he => hfit e (mem_cons_of_mem _ he)) (by omega)).imp fun r' hr' => ?_
      exact ⟨hr.1.trans hr'.1,by omega⟩

theorem freeLeaf_frees {at_ : Nat → Checked (Nat × Nat)}
    (hat : ∀ k ∈ ks, at_ k = .ok ((f k).start % u32,(f k).actualLen))
    (hfit : LeafFits (ks.map f)) (hn : leafSize (ks.map f) < u32) :
    Ends (do
      let (freed,s) ← freeLeaf D at_ ks 0 s
      pure (.ok freed,s)) (Frees D s (leafSize (ks.map f))) := by
  refine .seq (freeLeaf_ends hat hfit (by rw [zero_add]; exact hn)) fun r hr => ?_
  rw [zero_add] at hr
  exact .pure ⟨hr.1,fun m hm => by rw [← Except.ok.inj hm,hr.2]⟩

variable {at_ : Nat → Checked Nat}
   {below : Nat → Nat}

theorem freeIndex_ends {f : Nat → ExtentIdx} (hat : ∀ k ∈ ks, at_ k = .ok ((f k).leaf % u32))
    (hdown : ∀ k ∈ ks, (f k).leaf % u32 ≠ 0 → below ((f k).leaf % u32) < u32 → ∀ s', Freed D s s' →
      Ends (down ((f k).leaf % u32) s') (Frees D s' (below ((f k).leaf % u32))))
    (hs : Freed D s s') (hn : freed + indexSize below (ks.map f) < u32) :
    Ends (freeIndex D down at_ ks freed s') (Frees D s' (freed + indexSize below (ks.map f))) := by
  induction ks generalizing freed s' with
  | nil => exact .pure ⟨.refl,fun m hm => (Except.ok.inj hm).symm⟩
  | cons k ks ih =>
    have hat' := fun c (hc : c ∈ ks) => hat c (mem_cons_of_mem k hc)
    have hdown' := fun c (hc : c ∈ ks) => hdown c (mem_cons_of_mem k hc)
    have hsize : indexSize below ((k :: ks).map f) =
        (if (f k).leaf % u32 = 0 then 0 else below ((f k).leaf % u32) + 1) +
          indexSize below (ks.map f) := rfl
    rw [hsize] at hn ⊢
    rw [freeIndex,hat k (by simp),ok_bind]
    by_cases h0 : (f k).leaf % u32 = 0
    · rw [if_pos h0] at hn ⊢
      rw [if_pos h0,zero_add]
      exact ih hat' hdown' hs (by omega)
    · rw [if_neg h0] at hn ⊢
      rw [if_neg h0]
      refine .seq (hdown k (by simp) h0 (by omega) s' hs) fun r hr => ?_
      obtain ⟨r,t⟩ := r
      obtain ⟨ht,hr⟩ := hr
      cases r with
      | error e => exact .pure ⟨ht,fun m hm => by cases hm⟩
      | ok below' =>
        obtain rfl := hr _ rfl
        simp only [fit_eq (show freed + below ((f k).leaf % u32) < u32 by omega),ok_bind,
          fit_eq (show freed + below ((f k).leaf % u32) + 1 < u32 by omega)]
        refine (ih hat' hdown' (hs.trans (ht.trans .step)) (by omega)).imp fun r hr => ?_
        exact ⟨ht.trans (Freed.step.trans hr.1),fun m hm => by rw [hr.2 m hm]; omega⟩

theorem freeIndex_frees {f : Nat → ExtentIdx} (hat : ∀ k ∈ ks, at_ k = .ok ((f k).leaf % u32))
    (hdown : ∀ k ∈ ks, (f k).leaf % u32 ≠ 0 → below ((f k).leaf % u32) < u32 → ∀ s', Freed D s s' →
      Ends (down ((f k).leaf % u32) s') (Frees D s' (below ((f k).leaf % u32))))
    (hs : Freed D s s') (hn : indexSize below (ks.map f) < u32) :
    Ends (freeIndex D down at_ ks 0 s') (Frees D s' (indexSize below (ks.map f))) := by
  have h := freeIndex_ends hat hdown hs (show 0 + _ < u32 by rw [zero_add]; exact hn)
  rwa [zero_add] at h

theorem ext4FreeExtentTreeBlock_ends
    (h : Every (D.readBlockInto s) (Held D s frames depth) depth b)
    (hn : size (D.readBlockInto s) depth b < u32) (hs' : Freed D s s') :
    Ends (ext4FreeExtentTreeBlock D frames depth b s')
      (Frees D s' (size (D.readBlockInto s) depth b)) := by
  induction frames generalizing depth b s' with
  | zero => exact absurd h.here.frames_pos (Nat.not_lt_zero _)
  | succ frames ih =>
    obtain ⟨hs,hread⟩ := h.here.2.1 s' hs'
    rw [ext4FreeExtentTreeBlock]
    cases hb : D.readBlockInto s b with
    | error e =>
      rw [onBlock_error hs (hread.trans hb)]
      exact .pure ⟨.refl,fun m hm => by cases hm⟩
    | ok buf =>
      have hfit := h.here.2.2 buf hb
      rw [onBlock_ok hs (hread.trans hb)]
      cases depth with
      | zero =>
        have hsize : size (D.readBlockInto s) 0 b = leafSize (extentsIn buf) := by rw [size,hb]
        rw [hsize] at hn ⊢
        rw [if_pos rfl]
        exact freeLeaf_frees (fun k hk => runAt_eq (hfit.reads hk)) (hfit.2 rfl) hn
      | succ depth =>
        have hsize : size (D.readBlockInto s) (depth + 1) b =
            indexSize (size (D.readBlockInto s) depth) (indicesIn buf) := by rw [size,hb]
        rw [hsize] at hn ⊢
        rw [if_neg (Nat.succ_ne_zero depth)]
        exact freeIndex_frees (fun k hk => childAt_eq (hfit.reads hk)) (fun k hk h0 hlt t ht =>
          ih (h.below hb (List.mem_map_of_mem hk) (leaf_ne_zero h0)) hlt ht) hs' hn

variable {cap : Nat} {out : List Mapped}

theorem listLeaf_ends {at_ : Nat → Checked Extent} (hat : ∀ k ∈ ks, at_ k = .ok (f k))
    (hc : out.length ≤ cap) : Ends (listLeaf cap at_ ks out) fun out => out.length ≤ cap := by
  induction ks generalizing out with
  | nil => exact .pure hc
  | cons k ks ih =>
    rw [listLeaf]
    split
    · exact .pure hc
    · rw [hat k (by simp),ok_bind]
      refine ih (fun c hc => hat c (mem_cons_of_mem _ hc)) ?_
      rw [length_append,length_singleton]
      omega

/-- A listing that stays within the slice. -/
def Lists (cap : Nat) (r : Except FsError (List Mapped)) : Prop :=
  ∀ out, r = .ok out → out.length ≤ cap

theorem listLeaf_lists {at_ : Nat → Checked Extent} (hat : ∀ k ∈ ks, at_ k = .ok (f k))
    (hc : out.length ≤ cap) :
    Ends (do
      let out ← listLeaf cap at_ ks out
      pure (.ok out)) (Lists cap) := by
  refine .seq (listLeaf_ends hat hc) fun out ho => ?_
  exact .pure fun o h => Except.ok.inj h ▸ ho

theorem listIndex_ends
    {f : Nat → Nat}
    (hat : ∀ k ∈ ks, at_ k = .ok (f k))
    (hdown : ∀ k ∈ ks, f k ≠ 0 → ∀ out, out.length ≤ cap → Ends (down (f k) out) (Lists cap))
    (hc : out.length ≤ cap) : Ends (listIndex cap down at_ ks out) (Lists cap) := by
  induction ks generalizing out with
  | nil => exact .pure fun o ho => Except.ok.inj ho ▸ hc
  | cons k ks ih =>
    have hat' := fun c (hc : c ∈ ks) => hat c (mem_cons_of_mem k hc)
    have hdown' := fun c (hc : c ∈ ks) => hdown c (mem_cons_of_mem k hc)
    rw [listIndex]
    split
    · exact .pure fun o ho => Except.ok.inj ho ▸ hc
    · rw [hat k (by simp),ok_bind]
      by_cases h0 : f k = 0
      · rw [if_pos h0]
        exact ih hat' hdown' hc
      · rw [if_neg h0]
        refine .seq (hdown k (by simp) h0 out hc) fun r hr => ?_
        cases r with
        | error e => exact .pure fun o ho => by cases ho
        | ok out => exact ih hat' hdown' (hr out rfl)

theorem ext4FiemapNode_ends
    (h : Every (D.readBlockInto s) (Held D s frames depth) depth b)
    (hc : out.length ≤ cap) : Ends (ext4FiemapNode D s cap frames depth b out) (Lists cap) := by
  induction frames generalizing depth b out with
  | zero => exact absurd h.here.frames_pos (Nat.not_lt_zero _)
  | succ frames ih =>
    have hs := (h.here.2.1 s .refl).1
    rw [ext4FiemapNode]
    cases hb : D.readBlockInto s b with
    | error e =>
      rw [onBlock_error hs hb]
      exact .pure fun o ho => by cases ho
    | ok buf =>
      have hfit := h.here.2.2 buf hb
      rw [onBlock_ok hs hb]
      split
      · exact .pure fun o ho => by cases ho
      · cases depth with
        | zero =>
          rw [if_pos rfl]
          exact listLeaf_lists (fun k hk => extentAt_eq (hfit.reads hk)) hc
        | succ depth =>
          rw [if_neg (Nat.succ_ne_zero depth)]
          exact listIndex_ends (fun k hk => childAt_eq (hfit.reads hk)) (fun k hk h0 o ho =>
            ih (h.below hb (List.mem_map_of_mem hk) (leaf_ne_zero h0)) ho) hc

end Nodes

section Trees

variable {frames : Nat}

/-- What a lookup finds in the tree of an inode. -/
def foundFrom (R : Nat → Except FsError Bytes) (i : Inode) (l : Nat) : Except FsError Nat :=
  match i.extentHeader.depth with
  | 0 => .ok (Ext.searchLeaf i.extents l)
  | depth + 1 =>
    if Ext.searchIndex i.indices l = 0 then .ok 0
    else found R l depth (Ext.searchIndex i.indices l % u32)

/-- On a volume this is the lookup the rest of the file system is read with. -/
theorem foundFrom_volume {v : Volume} (hm : i.extentHeader.magic = extMagic) :
    foundFrom v.readBlock i l = v.getFileBlockExtent i l := by
  rw [Volume.getFileBlockExtent,if_neg (not_not.2 hm),foundFrom]
  simp only [found_volume]
  rfl

namespace Sound

theorem reads (h : Sound D s frames i) (hk : k ∈ List.range i.extentHeader.entries) :
    k < 17 := Nat.lt_of_lt_of_le (mem_range.1 hk) h.entries

variable {depth : Nat}

section

variable (h : Sound D s frames i)
include h

theorem getFileBlockExtent_ends (hm : i.extentHeader.magic = extMagic) :
    getFileBlockExtent D s frames i l = .ok (foundFrom (D.readBlockInto s) i l) := by
  rw [getFileBlockExtent,if_neg (not_not.2 hm),foundFrom]
  cases hd : i.extentHeader.depth with
  | zero =>
    rw [if_pos rfl,searchLeaf_ends (fun k hk => rootExtentAt_eq (h.reads hk)) (h.leaf hd)]
    rfl
  | succ depth =>
    rw [if_neg (Nat.succ_ne_zero depth),
      searchIndex_ends fun k hk => rootIdxAt_eq (h.reads hk),ok_bind]
    change (if Ext.searchIndex i.indices l = 0 then _
      else searchExtentTree D s l frames depth (Ext.searchIndex i.indices l % u32)) =
      .ok (if Ext.searchIndex i.indices l = 0 then _ else _)
    by_cases ht : Ext.searchIndex i.indices l = 0
    · rw [if_pos ht,if_pos ht]
      rfl
    · obtain ⟨e,he,hne,heq⟩ := searchIndex_mem ht
      rw [if_neg ht,if_neg ht,heq]
      exact searchExtentTree_ends (h.nodes depth hd e he hne)

theorem ext4FreeExtentBlocks_ends (hm : i.extentHeader.magic = extMagic) :
    Ends (ext4FreeExtentBlocks D frames i s) (Frees D s (treeSize (D.readBlockInto s) i)) := by
  have hfew := h.few
  rw [treeSize] at hfew ⊢
  simp only [ext4FreeExtentBlocks,if_neg (not_not.2 hm)]
  cases hd : i.extentHeader.depth with
  | zero =>
    rw [hd] at hfew
    rw [if_pos rfl]
    exact freeLeaf_frees (fun k hk => rootRunAt_eq (h.reads hk)) (h.leaf hd) hfew
  | succ depth =>
    rw [hd] at hfew
    rw [if_neg (Nat.succ_ne_zero depth)]
    exact freeIndex_frees (fun k hk => rootChildAt_eq (h.reads hk)) (fun k hk h0 hlt t ht =>
      ext4FreeExtentTreeBlock_ends
        (h.nodes depth hd _ (List.mem_map_of_mem hk) (leaf_ne_zero h0)) hlt ht) .refl hfew

theorem ext4Fiemap_ends (cap : Nat) : Ends (ext4Fiemap D s cap frames i) (Lists cap) := by
  simp only [ext4Fiemap,ext4FiemapTree]
  split
  · exact .pure fun o ho => by cases ho
  · cases hd : i.extentHeader.depth with
    | zero =>
      rw [if_pos rfl]
      exact listLeaf_lists (fun k hk => rootExtentAt_eq (h.reads hk)) (Nat.zero_le cap)
    | succ depth =>
      rw [if_neg (Nat.succ_ne_zero depth)]
      exact listIndex_ends (fun k hk => rootChildAt_eq (h.reads hk)) (fun k hk h0 o ho =>
        ext4FiemapNode_ends
          (h.nodes depth hd _ (List.mem_map_of_mem hk) (leaf_ne_zero h0)) ho) (Nat.zero_le cap)

end

end Sound

end Trees

section Volumes

variable {v : Volume}

theorem freed_same (b : Nat) :
    ∃ groups count, v.freed b = { v with groups := groups, freeBlocksCount := count } := by
  by_cases hb : b < v.firstDataBlock
  · exact ⟨v.groups,v.freeBlocksCount,by simp [Volume.freed,freeBlock,if_pos hb]⟩
  · by_cases hg : v.groupCount ≤ (b - v.firstDataBlock) / v.blocksPerGroup ∨
        32 ≤ (b - v.firstDataBlock) / v.blocksPerGroup
    · exact ⟨v.groups,v.freeBlocksCount,by simp [Volume.freed,freeBlock,if_pos hg]⟩
    · exact ⟨_,_,by
        simp only [Volume.freed,freeBlock,if_neg hb,if_neg hg]
        rfl⟩

theorem Freed.same (h : Freed Volume.device v w) :
    w.readBlock = v.readBlock ∧ w.blockSize = v.blockSize := by
  obtain ⟨bs,rfl⟩ := h
  induction bs generalizing v with
  | nil => exact ⟨rfl,rfl⟩
  | cons b bs ih =>
    obtain ⟨groups,count,hv⟩ := freed_same (v := v) b
    have hstep : (v.freed b).readBlock = v.readBlock ∧ (v.freed b).blockSize = v.blockSize := by
      rw [hv]
      exact ⟨rfl,rfl⟩
    have hrest := ih (v := v.freed b)
    exact ⟨hrest.1.trans hstep.1,hrest.2.trans hstep.2⟩

theorem settled_volume (hv : v.blockSize ≤ 4096) (b : Nat) : Settled Volume.device v b :=
  fun _ h => ⟨Nat.le_trans (Nat.le_of_eq h.same.2) hv,congrFun h.same.1 b⟩

end Volumes

/-- An inode with one index entry, for block 40, and a tree of `depth` levels. -/
def rootOver (depth : Nat) : Inode :=
  (((Inode.initFileExt4 0).setExtentDepth depth).setExtentEntries 1).setExtentIdxAtRaw 0 ⟨0,40,0⟩

/-- A leaf that maps logical block 0 to block 30. -/
def smallLeaf : Bytes := appendExtent (putHeader zeroBytes 0 84 0) 0 30

theorem smallTree_sound :
    Sound Volume.device (smallVolume.setBlock 40 smallLeaf) 128 (rootOver 1) where
  entries := by decide
  leaf := fun h => absurd h (by decide)
  nodes := fun depth hd e he _ => by
    have hone : (rootOver 1).extentHeader.depth = 1 := by decide
    obtain rfl : depth = 0 := by omega
    obtain rfl : e = ⟨0,40,0⟩ := by
      rw [show (rootOver 1).indices = [⟨0,40,0⟩] by decide +kernel] at he
      exact mem_singleton.1 he
    refine ⟨by decide,settled_volume (by decide) _,fun buf hb => ?_⟩
    obtain rfl : smallLeaf = buf := Except.ok.inj hb
    refine ⟨by decide,fun _ e he => ?_⟩
    obtain rfl : e = ⟨0,1,0,30⟩ := by
      rw [show extentsIn smallLeaf = [⟨0,1,0,30⟩] by decide +kernel] at he
      exact mem_singleton.1 he
    decide
  few := by decide +kernel

/-- An inode whose header says 18 extents: the last would start behind the inode. -/
def crammedRoot : Inode := (Inode.initFileExt4 0).setExtentEntries 18

end Miku.Ext.Walk
