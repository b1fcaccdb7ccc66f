import Mathlib.Data.Nat.Count

namespace Miku.Lib.Bitmap
open Function

/-- A bitmap kept as 64-bit words. -/
abbrev Words := Nat → BitVec 64

def bitAt (bm : Words) (i : Nat) : Bool := (bm (i / 64)).getLsbD (i % 64)

/-- Set (`|= 1 << k`) or clear (`&= !(1 << k)`) one bit of its word. -/
def putBit (b : Bool) (bm : Words) (i : Nat) : Words :=
  update bm (i / 64)
    (if b then bm (i / 64) ||| BitVec.twoPow 64 (i % 64)
     else bm (i / 64) &&& ~~~BitVec.twoPow 64 (i % 64))

def putBits (b : Bool) (bm : Words) (i : Nat) : Nat → Words
  | 0 => bm
  | n + 1 => putBits b (putBit b bm i) (i + 1) n

def putWords (b : Bool) (bm : Words) (i : Nat) : Nat → Words
  | 0 => bm
  | n + 1 =>
    putWords b (update bm (i / 64) (if b then BitVec.allOnes 64 else 0#64)) (i + 64) n

/-- Bits up to the first word boundary, whole words, then the bits left over. -/
def fillRange (b : Bool) (bm : Words) (s e : Nat) : Words :=
  if s ≥ e then bm else
    let headEnd := min ((s + 63) / 64 * 64) e
    let n := (e - headEnd) / 64
    let at_ := headEnd + 64 * n
    putBits b (putWords b (putBits b bm s (headEnd - s)) headEnd n) at_ (e - at_)

def trailingOnes (w : BitVec 64) : Nat :=
  ((List.range 64).find? (fun k => !w.getLsbD k)).getD 64

def scanBits (bm : Words) (i : Nat) : Nat → Option Nat
  | 0 => none
  | n + 1 => if !bitAt bm i then some i else scanBits bm (i + 1) n

def scanWords (bm : Words) (i : Nat) : Nat → Option Nat
  | 0 => none
  | n + 1 =>
    if bm (i / 64) ≠ BitVec.allOnes 64 then some (i + trailingOnes (bm (i / 64)))
    else scanWords bm (i + 64) n

theorem putBit_bitAt (b : Bool) (bm : Words) (i j : Nat) :
    bitAt (putBit b bm i) j = if j = i then b else bitAt bm j := by
  unfold bitAt putBit
  by_cases hw : j / 64 = i / 64
  · rw [hw,update_self]
    have hi : i % 64 < 64 := Nat.mod_lt _ (by decide)
    have hj : j % 64 < 64 := Nat.mod_lt _ (by decide)
    have hs : decide (i % 64 = j % 64) = decide (j = i) := decide_eq_decide.mpr (by omega)
    cases b
    · rw [if_neg (by decide),BitVec.getLsbD_and,BitVec.getLsbD_not,BitVec.getLsbD_twoPow,hs,
        decide_eq_true hi,decide_eq_true hj]
      by_cases he : j = i
      · rw [if_pos he,decide_eq_true he]; simp
      · rw [if_neg he,decide_eq_false he]; simp
    · rw [if_pos rfl,BitVec.getLsbD_or,BitVec.getLsbD_twoPow,hs,decide_eq_true hi]
      by_cases he : j = i
      · rw [if_pos he,decide_eq_true he]; simp
      · rw [if_neg he,decide_eq_false he]; simp
  · rw [update_of_ne hw]
    have he : j ≠ i := by rintro rfl; exact hw rfl
    simp [he]

theorem putBits_bitAt :
    bitAt (putBits b bm i n) j = if i ≤ j ∧ j < i + n then b else bitAt bm j := by
  induction n generalizing bm i with
  | zero => rw [putBits,if_neg (by omega)]
  | succ n ih =>
    rw [putBits,ih,putBit_bitAt]
    by_cases hj : j = i
    · subst hj
      rw [if_neg (by omega),if_pos rfl,if_pos (by omega)]
    · rw [if_neg hj]
      by_cases hr : i + 1 ≤ j ∧ j < i + 1 + n
      · rw [if_pos hr,if_pos (by omega)]
      · rw [if_neg hr,if_neg (by omega)]

theorem fullWord_bit (b : Bool) (hk : k < 64) :
    (if b then BitVec.allOnes 64 else 0#64).getLsbD k = b := by
  cases b
  · simp
  · rw [if_pos rfl,BitVec.getLsbD_allOnes,decide_eq_true hk]

theorem putWords_bitAt (b : Bool) (bm : Words) (i n j : Nat) (ha : i % 64 = 0) :
    bitAt (putWords b bm i n) j = if i ≤ j ∧ j < i + 64 * n then b else bitAt bm j := by
  induction n generalizing bm i with
  | zero => rw [putWords,if_neg (by omega)]
  | succ n ih =>
    rw [putWords,ih _ _ (by omega)]
    by_cases hr : i + 64 ≤ j ∧ j < i + 64 + 64 * n
    · rw [if_pos hr,if_pos (by omega)]
    · rw [if_neg hr]
      unfold bitAt
      by_cases hw : j / 64 = i / 64
      · rw [hw,update_self,fullWord_bit b (Nat.mod_lt _ (by decide)),if_pos (by omega)]
      · rw [update_of_ne hw,if_neg (by omega)]

theorem fillRange_bitAt (b : Bool) (bm : Words) (s e j : Nat) :
    bitAt (fillRange b bm s e) j = if s ≤ j ∧ j < e then b else bitAt bm j := by
  unfold fillRange
  split
  · rw [if_neg (by omega)]
  · rename_i hlt
    dsimp only
    generalize hh : min ((s + 63) / 64 * 64) e = headEnd
    generalize hn : (e - headEnd) / 64 = n
    have hle : s ≤ headEnd ∧ headEnd ≤ e := by omega
    rw [putBits_bitAt]
    by_cases hr : headEnd + 64 * n ≤ j ∧ j < headEnd + 64 * n + (e - (headEnd + 64 * n))
    · rw [if_pos hr,if_pos (by omega)]
    · rw [if_neg hr]
      by_cases hz : n = 0
      · subst hz
        rw [putWords,putBits_bitAt]
        by_cases hs : s ≤ j ∧ j < s + (headEnd - s)
        · rw [if_pos hs,if_pos (by omega)]
        · rw [if_neg hs,if_neg (by omega)]
      · -- a whole word remains, so the head loop stopped at a word boundary
        rw [putWords_bitAt _ _ _ _ _ (by omega),putBits_bitAt]
        by_cases hm : headEnd ≤ j ∧ j < headEnd + 64 * n
        · rw [if_pos hm,if_pos (by omega)]
        · rw [if_neg hm]
          by_cases hs : s ≤ j ∧ j < s + (headEnd - s)
          · rw [if_pos hs,if_pos (by omega)]
          · rw [if_neg hs,if_neg (by omega)]

theorem trailingOnes_spec (h : w ≠ BitVec.allOnes 64) :
    trailingOnes w < 64 ∧ w.getLsbD (trailingOnes w) = false ∧
      ∀ k < trailingOnes w, w.getLsbD k = true := by
  unfold trailingOnes
  cases hf : (List.range 64).find? (fun k => !w.getLsbD k) with
  | some k =>
    obtain ⟨hz,hk,hones⟩ := List.find?_range_eq_some.mp hf
    refine ⟨List.mem_range.mp hk,by simpa using hz,fun j hj => ?_⟩
    simpa using hones j hj
  | none =>
    refine absurd (BitVec.eq_of_getLsbD_eq fun i hi => ?_) h
    have hn := List.find?_eq_none.mp hf i (List.mem_range.mpr hi)
    rw [BitVec.getLsbD_allOnes]
    simpa [hi] using hn

variable {i : Nat}

theorem bitAt_add (bm : Words) (ha : i % 64 = 0) (hk : k < 64) :
    bitAt bm (i + k) = (bm (i / 64)).getLsbD k := by
  unfold bitAt
  rw [show (i + k) / 64 = i / 64 by omega,show (i + k) % 64 = k by omega]

/-- How many of the first `n` bits are `b`. -/
def countBits (b : Bool) (bm : Words) (n : Nat) : Nat := Nat.count (fun i => bitAt bm i = b) n

variable {n : Nat}

theorem countBits_block (h : i + m ≤ n)
    (hout : ∀ j, ¬ (i ≤ j ∧ j < i + m) → bitAt bm' j = bitAt bm j) :
    countBits b bm n + Nat.count (fun k => bitAt bm' (i + k) = b) m =
      countBits b bm' n + Nat.count (fun k => bitAt bm (i + k) = b) m := by
  obtain ⟨r,rfl⟩ := Nat.exists_eq_add_of_le h
  have hlow : Nat.count (fun j => bitAt bm' j = b) i = Nat.count (fun j => bitAt bm j = b) i := by
    rw [Nat.count_eq_card_filter_range,Nat.count_eq_card_filter_range]
    refine congrArg Finset.card (Finset.filter_congr fun j hj => ?_)
    rw [hout j (by have := Finset.mem_range.mp hj; omega)]
  have hhigh : (fun j => bitAt bm' (i + m + j) = b) = fun j => bitAt bm (i + m + j) = b := by
    funext j
    rw [hout _ (by omega)]
  unfold countBits
  rw [Nat.count_add,Nat.count_add,Nat.count_add,Nat.count_add,hlow]
  simp only [hhigh]
  omega

theorem countBits_flip (bm : Words) (b b' : Bool) (h : i < n) :
    countBits b (putBit b' bm i) n + (if bitAt bm i = b then 1 else 0) =
      countBits b bm n + if b' = b then 1 else 0 := by
  have hout : ∀ j, ¬ (i ≤ j ∧ j < i + 1) → bitAt (putBit b' bm i) j = bitAt bm j :=
    fun j hj => by rw [putBit_bitAt,if_neg (by omega)]
  have hblock := countBits_block (b := b) (i := i) (m := 1) h hout
  simp [Nat.count_succ,putBit_bitAt] at hblock
  omega

theorem countBits_putBit (h : i < n) (hb : bitAt bm i ≠ b) :
    countBits b (putBit b bm i) n = countBits b bm n + 1 := by
  simpa [hb] using countBits_flip bm b b h

theorem countBits_clear (h : i < n) (hb : bitAt bm i = b) :
    countBits b (putBit (!b) bm i) n + 1 = countBits b bm n := by
  simpa [hb] using countBits_flip bm b (!b) h

/-- The `n` bits from `s` on are zero. -/
def RunAt (bm : Words) (s n : Nat) : Prop := ∀ i, s ≤ i → i < s + n → bitAt bm i = false

theorem runAt_one : RunAt bm s 1 ↔ bitAt bm s = false := by
  refine ⟨fun h => h s .refl (Nat.lt_succ_self s),fun h i h1 h2 => ?_⟩
  obtain rfl : i = s := by omega
  exact h

/-- The result of a search for the first run of `n` zeros in `[lo, hi)`. -/
def FirstRun (bm : Words) (lo hi n : Nat) : Option Nat → Prop
  | some r => lo ≤ r ∧ r + n ≤ hi ∧ RunAt bm r n ∧ ∀ s, lo ≤ s → s < r → ¬ RunAt bm s n
  | none => ∀ s, lo ≤ s → s + n ≤ hi → ¬ RunAt bm s n

theorem FirstRun.isSome_iff (h : FirstRun bm lo hi n r) :
    r.isSome ↔ ∃ s, lo ≤ s ∧ s + n ≤ hi ∧ RunAt bm s n := by
  cases r with
  | some r => exact ⟨fun _ => ⟨r,h.1,h.2.1,h.2.2.1⟩,fun _ => rfl⟩
  | none => exact ⟨nofun,fun ⟨s,h1,h2,h3⟩ => absurd h3 (h s h1 h2)⟩

theorem FirstRun.eq (h : FirstRun bm lo hi n r) (h' : FirstRun bm lo hi n q) : r = q := by
  cases r with
  | none =>
    cases q with
    | none => rfl
    | some s => exact absurd h'.2.2.1 (h s h'.1 h'.2.1)
  | some r =>
    cases q with
    | none => exact absurd h.2.2.1 (h' r h.1 h.2.1)
    | some s =>
      have hrs := Nat.not_lt.mp fun hlt => h.2.2.2 s h'.1 hlt h'.2.2.1
      have hsr := Nat.not_lt.mp fun hlt => h'.2.2.2 r h.1 hlt h.2.2.1
      rw [Nat.le_antisymm hrs hsr]

theorem FirstRun.eq_some (h : FirstRun bm lo hi 1 r)
    (hlo : lo ≤ k) (hhi : k + 1 ≤ hi) (hk : bitAt bm k = false)
    (hbefore : ∀ i, lo ≤ i → i < k → bitAt bm i = true) : r = some k := by
  refine h.eq (q := some k) ⟨hlo,hhi,runAt_one.mpr hk,fun i h1 h2 hr => ?_⟩
  cases (hbefore i h1 h2).symm.trans (runAt_one.mp hr)

/-- The search that looks at every start, and at every bit from it on. -/
def naiveSearch (bm : Words) (lo hi n : Nat) : Option Nat :=
  (List.range' lo (hi - lo)).find? fun s =>
    decide (s + n ≤ hi) && (List.range n).all fun k => !bitAt bm (s + k)

theorem naiveSearch_first (bm : Words) (lo hi : Nat) (hn : n ≠ 0) :
    FirstRun bm lo hi n (naiveSearch bm lo hi n) := by
  have hp : ∀ s, (decide (s + n ≤ hi) && (List.range n).all fun k => !bitAt bm (s + k)) = true ↔
      s + n ≤ hi ∧ RunAt bm s n := by
    intro s
    simp only [Bool.and_eq_true,decide_eq_true_eq,List.all_eq_true,List.mem_range,
      Bool.not_eq_true']
    refine and_congr_right fun _ => ⟨fun h i h1 h2 => ?_,fun h k hk => h _ (by omega) (by omega)⟩
    simpa [Nat.add_sub_cancel' h1] using h (i - s) (by omega)
  cases hf : naiveSearch bm lo hi n with
  | none =>
    intro s h1 h2 hrun
    have := List.find?_eq_none.mp hf s (List.mem_range'_1.mpr ⟨h1,by omega⟩)
    exact this ((hp s).mpr ⟨h2,hrun⟩)
  | some r =>
    obtain ⟨h1,h2,h3⟩ := List.find?_range'_eq_some.mp hf
    obtain ⟨hle,hrun⟩ := (hp r).mp h1
    refine ⟨(List.mem_range'_1.mp h2).1,hle,hrun,fun s h4 h5 hs => ?_⟩
    have := h3 s h4 h5
    rw [(hp s).mpr ⟨by omega,hs⟩] at this
    cases this

theorem FirstRun.or (hx : FirstRun bm lo mid 1 x)
    (hy : FirstRun bm mid hi 1 y) (hlo : lo ≤ mid) (hhi : mid ≤ hi) : FirstRun bm lo hi 1 (x.or y) := by
  cases x with
  | some r =>
    obtain ⟨h1,h2,h3,h4⟩ := hx
    exact ⟨h1,by omega,h3,h4⟩
  | none =>
    have hleft : ∀ s, lo ≤ s → s < mid → ¬ RunAt bm s 1 := fun s h1 h2 => hx s h1 (by omega)
    cases y with
    | some r =>
      obtain ⟨h1,h2,h3,h4⟩ := hy
      refine ⟨by omega,h2,h3,fun s hs hr => ?_⟩
      by_cases hm : s < mid
      · exact hleft s hs hm
      · exact h4 s (by omega) hr
    | none =>
      intro s hs hr
      by_cases hm : s < mid
      · exact hleft s hs hm
      · exact hy s (by omega) hr

theorem scanBits_first (bm : Words) (i n : Nat) : FirstRun bm i (i + n) 1 (scanBits bm i n) := by
  induction n generalizing i with
  | zero => exact fun s h1 h2 => absurd h2 (by omega)
  | succ n ih =>
    have hstep : FirstRun bm i (i + 1) 1 (if !bitAt bm i then some i else none) := by
      split
      · rename_i hz
        exact ⟨Nat.le_refl i,.refl,runAt_one.mpr (by simpa using hz),fun s h1 h2 => by omega⟩
      · rename_i hz
        intro s h1 h2 hrun
        obtain rfl : s = i := by omega
        exact hz (by simp [runAt_one.mp hrun])
    have hor := hstep.or (ih (i + 1)) (by omega) (by omega)
    rw [show i + 1 + n = i + (n + 1) by omega] at hor
    rw [scanBits]
    split at hor <;> rename_i hz
    · rw [if_pos hz]
      exact hor
    · rw [if_neg hz]
      exact hor

theorem scanWords_first (bm : Words) (n : Nat) (ha : i % 64 = 0) :
    FirstRun bm i (i + 64 * n) 1 (scanWords bm i n) := by
  induction n generalizing i with
  | zero => exact fun s h1 h2 => absurd h2 (by omega)
  | succ n ih =>
    have hstep : FirstRun bm i (i + 64) 1
        (if bm (i / 64) ≠ BitVec.allOnes 64 then some (i + trailingOnes (bm (i / 64))) else none) := by
      split
      · rename_i hw
        obtain ⟨hlt,hz,hones⟩ := trailingOnes_spec hw
        refine ⟨by omega,by omega,runAt_one.mpr ((bitAt_add bm ha hlt).trans hz),?_⟩
        intro s h1 h2 hrun
        have hs := bitAt_add bm ha (k := s - i) (by omega)
        rw [Nat.add_sub_cancel' h1,hones _ (by omega),runAt_one.mp hrun] at hs
        cases hs
      · rename_i hw
        intro s h1 h2 hrun
        have hs := bitAt_add bm ha (k := s - i) (by omega)
        rw [Nat.add_sub_cancel' h1,runAt_one.mp hrun,not_not.mp hw,BitVec.getLsbD_allOnes,
          decide_eq_true (by omega : s - i < 64)] at hs
        cases hs
    have hor := hstep.or (ih (i := i + 64) (by omega)) (by omega) (by omega)
    rw [show i + 64 + 64 * n = i + 64 * (n + 1) by omega] at hor
    rw [scanWords]
    split at hor <;> rename_i hw
    · rw [if_pos hw]
      exact hor
    · rw [if_neg hw]
      exact hor

end Miku.Lib.Bitmap
