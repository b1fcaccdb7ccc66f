import Miku.Mm.Pmm
import Miku.Lib.Run

namespace Miku.Mm
open Lib.Bitmap

namespace FrameAllocator

/-- What the scan of `[lo, i)` has found: the last `consecutive` frames are free, and no run
starts before them. -/
structure Scanned (bm : Words) (lo i consecutive start count : Nat) : Prop where
  lower : lo + consecutive ≤ i
  short : consecutive < count
  start : consecutive ≠ 0 → start + consecutive = i
  free : RunAt bm (i - consecutive) consecutive
  before : ∀ s, lo ≤ s → s + consecutive < i → ¬ RunAt bm s count

namespace Scanned
variable {i start count : Nat} (h : Scanned bm lo i consecutive start count)
include h

theorem used (hused : bitAt bm i = true) : Scanned bm lo (i + 1) 0 start count := by
  have hlower := h.lower
  have hshort := h.short
  refine ⟨by omega,by omega,fun h0 => absurd rfl h0,fun j h1 h2 => by omega,?_⟩
  intro s hs hi hrun
  by_cases hb : s + consecutive < i
  · exact h.before s hs hb hrun
  · rw [hrun i (by omega) (by omega)] at hused
    cases hused

theorem next (hfree : bitAt bm i = false) (hmore : consecutive + 1 < count) :
    Scanned bm lo (i + 1) (consecutive + 1) (if consecutive = 0 then i else start) count := by
  have hlower := h.lower
  refine ⟨by omega,hmore,fun _ => ?_,fun j h1 h2 => ?_,fun s hs hi => h.before s hs (by omega)⟩
  · split
    · omega
    · have := h.start (by assumption)
      omega
  · by_cases hj : j = i
    · rw [hj]
      exact hfree
    · exact h.free j (by omega) (by omega)

theorem found (hfree : bitAt bm i = false) (hfull : ¬ consecutive + 1 < count)
    (hi : i < limit) : FirstRun bm lo limit count (some (if consecutive = 0 then i else start)) := by
  have hlower := h.lower
  have hshort := h.short
  have hstart : (if consecutive = 0 then i else start) + consecutive = i := by
    split
    · omega
    · exact h.start (by assumption)
  refine ⟨by omega,by omega,fun j h1 h2 => ?_,fun s hs hlt => h.before s hs (by omega)⟩
  by_cases hj : j = i
  · rw [hj]
    exact hfree
  · exact h.free j (by omega) (by omega)

end Scanned

variable {count : Nat}

theorem scan_run_first (h : Scanned bm lo i consecutive start count) (hfuel : limit - i ≤ fuel) :
    FirstRun bm lo limit count (scanRun bm limit count fuel i consecutive start) := by
  have hend : limit ≤ i → FirstRun bm lo limit count none := by
    intro hi s hs he
    have := h.short
    exact h.before s hs (by omega)
  induction fuel generalizing i consecutive start with
  | zero => exact hend (by omega)
  | succ fuel ih =>
    have hnext : ∀ {i' c' st'}, i < i' → Scanned bm lo i' c' st' count →
        FirstRun bm lo limit count (scanRun bm limit count fuel i' c' st') := by
      intro i' c' st' hi' h'
      refine ih h' (by omega) fun hi s hs he => ?_
      have := h'.short
      exact h'.before s hs (by omega)
    unfold scanRun
    by_cases hi : i < limit
    · rw [if_pos hi]
      dsimp only
      by_cases hones : (consecutive = 0 ∧ i % 64 = 0 ∧ i + 64 ≤ limit) ∧ bm (i / 64) = BitVec.allOnes 64
      · obtain ⟨⟨rfl,ha,hw⟩,hones⟩ := hones
        rw [if_pos ⟨⟨rfl,ha,hw⟩,hones⟩]
        refine hnext (by omega) ⟨by have := h.lower; omega,h.short,fun h0 => absurd rfl h0,
          fun j h1 h2 => by omega,fun s hs hlt hrun => ?_⟩
        by_cases hb : s < i
        · exact h.before s hs hb hrun
        · have hbit := bitAt_add bm ha (k := s - i) (by omega)
          rw [Nat.add_sub_cancel' (by omega),hrun s .refl (by have := h.short; omega),hones,
            BitVec.getLsbD_allOnes,decide_eq_true (by omega : s - i < 64)] at hbit
          cases hbit
      rw [if_neg hones]
      by_cases hzero : (consecutive = 0 ∧ i % 64 = 0 ∧ i + 64 ≤ limit) ∧ bm (i / 64) = 0#64
      · obtain ⟨⟨rfl,ha,hw⟩,hzero⟩ := hzero
        rw [if_pos ⟨⟨rfl,ha,hw⟩,hzero⟩]
        have hrun : RunAt bm i 64 := by
          intro j h1 h2
          have hbit := bitAt_add bm ha (k := j - i) (by omega)
          rw [Nat.add_sub_cancel' h1,hzero] at hbit
          simpa using hbit
        split
        · exact ⟨h.lower,by omega,fun j h1 h2 => hrun j h1 (by omega),h.before⟩
        · exact hnext (by omega) ⟨by have := h.lower; omega,by omega,fun _ => rfl,
            fun j h1 h2 => hrun j (by omega) (by omega),fun s hs hlt => h.before s hs (by omega)⟩
      rw [if_neg hzero]
      cases hbit : bitAt bm i with
      | true => exact hnext (by omega) (h.used hbit)
      | false =>
        simp only [Bool.not_false,↓reduceIte]
        by_cases hfull : consecutive + 1 ≥ count
        · rw [if_pos hfull]
          exact h.found hbit (by omega) hi
        · rw [if_neg hfull]
          exact hnext (by omega) (h.next hbit (by omega))
    · rw [if_neg hi]
      exact hend (by omega)

theorem find_first (a : FrameAllocator) (start limit : Nat) (hn : count ≠ 0) :
    FirstRun a.bitmap start limit count (a.findContiguous start limit count) := by
  unfold findContiguous
  split
  · exact fun s hs he => absurd he (by omega)
  split
  · rename_i hc hone
    subst hone
    dsimp only
    generalize hh : min ((start + 63) / 64 * 64) limit = headEnd
    generalize hk : (limit - headEnd) / 64 = n
    have hhead := scanBits_first a.bitmap start (headEnd - start)
    have hwords : FirstRun a.bitmap headEnd (headEnd + 64 * n) 1 (scanWords a.bitmap headEnd n) := by
      by_cases hz : n = 0
      · rw [hz]
        exact fun s hs he => absurd he (by omega)
      · exact scanWords_first a.bitmap n (by omega)
    have htail := scanBits_first a.bitmap (headEnd + 64 * n) (limit - (headEnd + 64 * n))
    rw [Nat.add_sub_cancel' (by omega)] at hhead htail
    exact hhead.or (hwords.or htail (by omega) (by omega)) (by omega) (by omega)
  · rename_i hc hone
    refine scan_run_first ⟨.refl,by omega,fun h0 => absurd rfl h0,fun j h1 h2 => by omega,?_⟩
      .refl
    exact fun s hs hlt => absurd hlt (by omega)

/-- Where the search starts. -/
def hintFor (a : FrameAllocator) (count : Nat) : Nat := if count = 1 then a.freeHint else a.contiguousHint

/-- Both hints are at most the cap. -/
def Hinted (a : FrameAllocator) : Prop := a.freeHint ≤ frameCap ∧ a.contiguousHint ≤ frameCap

/-- From the hint to the cap, then what lies before the hint. -/
def firstFit (a : FrameAllocator) (count : Nat) : Option Nat :=
  (a.findContiguous (a.hintFor count) frameCap count).or (a.findContiguous 0 (a.hintFor count) count)

theorem alloc_frames_eq (a : FrameAllocator) (count : Nat) :
    a.allocFrames count = (a.firstFit count).map fun f => (f * frameSize,{ a with
      bitmap := fillRange true a.bitmap f (f + count)
      used := a.used + count
      freeHint := if count = 1 then f + 1 else a.freeHint
      contiguousHint := if count = 1 then a.contiguousHint else f + count }) := by
  unfold allocFrames firstFit hintFor
  dsimp only
  generalize (if count = 1 then a.freeHint else a.contiguousHint) = start
  cases a.findContiguous start frameCap count with
  | some r => rfl
  | none =>
    by_cases h0 : start > 0
    · simp [h0]
    · obtain rfl : start = 0 := by omega
      simp [findContiguous]

variable {a : FrameAllocator}

theorem alloc_frames_isSome (hint : a.hintFor count ≤ frameCap) :
    (a.allocFrames count).isSome ↔ count ≠ 0 ∧ ∃ s, s + count ≤ frameCap ∧ RunAt a.bitmap s count ∧
      (a.hintFor count ≤ s ∨ s + count ≤ a.hintFor count) := by
  rw [alloc_frames_eq,Option.isSome_map,firstFit,Option.isSome_or,Bool.or_eq_true]
  by_cases hn : count = 0
  · subst hn
    simp [findContiguous]
  rw [(find_first a (a.hintFor count) frameCap hn).isSome_iff,
    (find_first a 0 (a.hintFor count) hn).isSome_iff]
  constructor
  · rintro (⟨s,h1,h2,h3⟩ | ⟨s,-,h2,h3⟩)
    · exact ⟨hn,s,h2,h3,.inl h1⟩
    · exact ⟨hn,s,by omega,h3,.inr h2⟩
  · rintro ⟨-,s,h1,h2,h3 | h3⟩
    · exact .inl ⟨s,h3,h1,h2⟩
    · exact .inr ⟨s,Nat.zero_le s,h3,h2⟩

theorem alloc_frames_spec (h : a.allocFrames count = some (phys,a'))
    (hint : a.hintFor count ≤ frameCap) : ∃ f, phys = f * frameSize ∧ count ≠ 0 ∧
      f + count ≤ frameCap ∧ RunAt a.bitmap f count ∧ a' = { a with
        bitmap := fillRange true a.bitmap f (f + count)
        used := a.used + count
        freeHint := if count = 1 then f + 1 else a.freeHint
        contiguousHint := if count = 1 then a.contiguousHint else f + count } := by
  have hn : count ≠ 0 := ((alloc_frames_isSome hint).mp (by rw [h]; rfl)).1
  rw [alloc_frames_eq] at h
  obtain ⟨r,hr,he⟩ := Option.map_eq_some_iff.mp h
  obtain ⟨rfl,rfl⟩ := Prod.mk.inj he
  have hup := find_first a (a.hintFor count) frameCap hn
  have hlow := find_first a 0 (a.hintFor count) hn
  rcases Option.or_eq_some_iff.mp hr with hf | ⟨-,hf⟩
  · rw [hf] at hup
    exact ⟨r,rfl,hn,hup.2.1,hup.2.2.1,rfl⟩
  · rw [hf] at hlow
    exact ⟨r,rfl,hn,le_trans hlow.2.1 hint,hlow.2.2.1,rfl⟩

theorem alloc_frame_spec (h : a.allocFrame = some (phys,a')) (hint : a.freeHint ≤ frameCap) :
    ∃ f, phys = f * 4096 ∧ f < frameCap ∧ a.isUsed f = false ∧ a'.freeHint ≤ frameCap ∧
      ∀ g, a'.isUsed g = if g = f then true else a.isUsed g := by
  obtain ⟨f,rfl,-,hf,hrun,rfl⟩ := alloc_frames_spec h hint
  refine ⟨f,rfl,hf,runAt_one.mp hrun,hf,fun g => ?_⟩
  simp only [isUsed,fillRange_bitAt]
  by_cases hg : g = f
  · rw [if_pos (by omega),if_pos hg]
  · rw [if_neg (by omega),if_neg hg]

theorem release_one_used (a : FrameAllocator) (i g : Nat) :
    (if a.isUsed i then { a with bitmap := putBit false a.bitmap i, used := a.used - 1 }
      else a : FrameAllocator).isUsed g = if g = i then false else a.isUsed g := by
  split
  · simp only [isUsed,putBit_bitAt]
  · rename_i hu
    by_cases hg : g = i
    · rw [if_pos hg,hg]
      simpa using hu
    · rw [if_neg hg]

theorem release_one_hint (a : FrameAllocator) (i : Nat) :
    (if a.isUsed i then { a with bitmap := putBit false a.bitmap i, used := a.used - 1 }
      else a : FrameAllocator).freeHint = a.freeHint := by
  split <;> rfl

theorem free_frame_used (a : FrameAllocator) (phys g : Nat) : (a.freeFrame phys).isUsed g =
      if g = phys / 4096 ∧ g < frameCap then false else a.isUsed g := by
  unfold freeFrame freeFrames
  dsimp only [frameSize]
  change (a.releaseFrames (phys / 4096) _).isUsed g = _
  by_cases hc : phys / 4096 < frameCap
  · rw [show min (phys / 4096 + 1) frameCap - phys / 4096 = 1 by omega,releaseFrames,
      releaseFrames,release_one_used]
    by_cases hg : g = phys / 4096
    · rw [if_pos hg,if_pos ⟨hg,hg ▸ hc⟩]
    · rw [if_neg hg,if_neg (fun h => hg h.1)]
  · rw [show min (phys / 4096 + 1) frameCap - phys / 4096 = 0 by omega,releaseFrames,
      if_neg (by omega)]

theorem free_batched_used (a : FrameAllocator) (phys g : Nat) : (a.freeFrameBatched phys).isUsed g =
      if g = phys / 4096 ∧ g < frameCap then false else a.isUsed g := by
  unfold freeFrameBatched
  dsimp only [frameSize]
  split
  · rw [if_neg (by omega)]
  · rename_i hc
    refine (release_one_used a (phys / 4096) g).trans ?_
    by_cases hg : g = phys / 4096
    · rw [if_pos hg,if_pos ⟨hg,by omega⟩]
    · rw [if_neg hg,if_neg (fun h => hg h.1)]

theorem release_hint (a : FrameAllocator) (i n : Nat) :
    (a.releaseFrames i n).freeHint = a.freeHint := by
  induction n generalizing a i with
  | zero => rfl
  | succ n ih => rw [releaseFrames,ih,release_one_hint]

theorem free_frame_hint (a : FrameAllocator) (phys : Nat) (h : a.freeHint ≤ frameCap) :
    (a.freeFrame phys).freeHint ≤ frameCap := by
  unfold freeFrame freeFrames
  dsimp only
  rw [release_hint]
  exact le_trans (min_le_right _ _) h

theorem free_batched_hint (a : FrameAllocator) (phys : Nat) (h : a.freeHint ≤ frameCap) :
    (a.freeFrameBatched phys).freeHint ≤ frameCap := by
  unfold freeFrameBatched
  dsimp only
  split
  · exact h
  · rw [release_one_hint]
    exact le_trans (min_le_right _ _) h

/-! Runs of the frame allocator. The search goes from a hint to the end and then from zero
back up to the hint, so it misses a run of free frames around the hint. -/

open Lib

/-- The search by words finds what the search bit by bit finds, except that it never finds a
run of no frames. -/
theorem find_contiguous_naive_iff (a : FrameAllocator) (start limit count : Nat) :
    (count = 0 → a.findContiguous start limit count = none) ∧
    (a.findContiguous start limit count = naiveSearch a.bitmap start limit count ↔
      count ≠ 0 ∨ limit ≤ start) := by
  refine ⟨fun h => by rw [findContiguous,if_pos (.inr h)],?_⟩
  by_cases hn : count = 0
  · subst hn
    rw [findContiguous,if_pos (.inr rfl)]
    by_cases hle : limit ≤ start
    · simp [naiveSearch,hle]
    · obtain ⟨m,hm⟩ := Nat.exists_eq_add_of_lt (not_le.mp hle)
      simp [naiveSearch,hm,add_assoc,List.range'_succ]
  · refine iff_of_true ?_ (.inl hn)
    exact (find_first a start limit hn).eq (naiveSearch_first a.bitmap start limit hn)

theorem no_frames_not_found : new.findContiguous 0 1 0 ≠ naiveSearch new.bitmap 0 1 0 := by decide

variable {i n : Nat}

theorem release_hints (a : FrameAllocator) (i n : Nat) :
    (a.releaseFrames i n).freeHint = a.freeHint ∧
      (a.releaseFrames i n).contiguousHint = a.contiguousHint := by
  refine ⟨release_hint a i n,?_⟩
  induction n generalizing a i with
  | zero => rfl
  | succ n ih =>
    rw [releaseFrames,ih]
    split <;> rfl

theorem reserve_bits_hints (a : FrameAllocator) (i n : Nat) :
    (a.reserveBits i n).freeHint = a.freeHint ∧
      (a.reserveBits i n).contiguousHint = a.contiguousHint := by
  induction n generalizing a i with
  | zero => exact ⟨rfl,rfl⟩
  | succ n ih =>
    rw [reserveBits,(ih _ _).1,(ih _ _).2]
    split <;> exact ⟨rfl,rfl⟩

theorem reserve_words_hints (a : FrameAllocator) (i n : Nat) :
    (a.reserveWords i n).freeHint = a.freeHint ∧
      (a.reserveWords i n).contiguousHint = a.contiguousHint := by
  induction n generalizing a i with
  | zero => exact ⟨rfl,rfl⟩
  | succ n ih =>
    rw [reserveWords,(ih _ _).1,(ih _ _).2]
    exact ⟨rfl,rfl⟩

section

variable (h : a.Hinted)
include h

theorem Hinted.reserve (base size : Nat) : (a.reserveRegion base size).Hinted := by
  unfold reserveRegion
  dsimp only
  split
  · exact h
  · unfold Hinted
    simp only [(reserve_bits_hints _ _ _).1,(reserve_bits_hints _ _ _).2,(reserve_words_hints _ _ _).1,
      (reserve_words_hints _ _ _).2]
    exact h

theorem Hinted.add (base size : Nat) : (a.addRegion base size).Hinted := by
  unfold addRegion markRangeFree
  dsimp only
  split
  · exact h
  · exact ⟨le_trans (min_le_right _ _) h.1,le_trans (min_le_right _ _) h.2⟩

theorem Hinted.free (phys count : Nat) : (a.freeFrames phys count).Hinted := by
  unfold freeFrames Hinted
  dsimp only
  rw [(release_hints _ _ _).1,(release_hints _ _ _).2]
  exact ⟨le_trans (min_le_right _ _) h.1,le_trans (min_le_right _ _) h.2⟩

theorem Hinted.hintFor (count : Nat) : a.hintFor count ≤ frameCap := by
  unfold FrameAllocator.hintFor
  split
  · exact h.1
  · exact h.2

theorem Hinted.alloc (ha : a.allocFrames count = some (phys,a')) : a'.Hinted := by
  obtain ⟨f,-,-,hf,-,rfl⟩ := alloc_frames_spec ha (h.hintFor count)
  refine ⟨?_,?_⟩
  · dsimp only
    split
    · omega
    · exact h.1
  · dsimp only
    split
    · exact h.2
    · exact hf

theorem Hinted.step (call : Call) : (a.step call).Hinted := by
  cases call with
  | addRegion base size => exact h.add _ _
  | reserveRegion base size => exact h.reserve _ _
  | freeFrames phys count => exact h.free _ _
  | allocFrames count =>
    unfold FrameAllocator.step
    dsimp only
    cases ha : a.allocFrames count.toNat with
    | none => exact h
    | some r => exact h.alloc ha

end

theorem hinted_run (calls : List Call) (h : a.Hinted) : (calls.foldl FrameAllocator.step a).Hinted := by
  induction calls generalizing a with
  | nil => exact h
  | cons call calls ih => exact ih (h.step call)

/-- `n` consecutive free frames below the cap. -/
def FreeRun (a : FrameAllocator) (s n : Nat) : Prop := s + n ≤ frameCap ∧ RunAt a.bitmap s n

/-- After any calls, frames are found whenever there is a run of them, just if some run
does not have the hint inside. -/
theorem alloc_frames_complete_iff (calls : List Call) (n : Nat) :
    ((∃ s, (calls.foldl step new).FreeRun s n) → ((calls.foldl step new).allocFrames n).isSome) ↔
      n ≠ 0 ∧ ((∃ s, (calls.foldl step new).FreeRun s n) → ∃ s, (calls.foldl step new).FreeRun s n ∧
        ¬ (s < (calls.foldl step new).hintFor n ∧ (calls.foldl step new).hintFor n < s + n)) := by
  generalize ha : calls.foldl step new = a
  have hint : a.hintFor n ≤ frameCap := (ha ▸ hinted_run calls ⟨Nat.zero_le _,Nat.zero_le _⟩ :
      a.Hinted).hintFor n
  have hside : ∀ s, (¬ (s < a.hintFor n ∧ a.hintFor n < s + n)) ↔ a.hintFor n ≤ s ∨ s + n ≤ a.hintFor n := by
    intro s
    omega
  rw [alloc_frames_isSome hint]
  simp only [hside]
  constructor
  · intro h
    by_cases hn : n = 0
    · -- no frames at all are always there, and never found
      subst hn
      exact absurd rfl (h ⟨0,Nat.zero_le _,fun i h1 h2 => by omega⟩).1
    · refine ⟨hn,fun hex => ?_⟩
      obtain ⟨-,s,h1,h2,h3⟩ := h hex
      exact ⟨s,⟨h1,h2⟩,h3⟩
  · rintro ⟨hn,h⟩ hex
    obtain ⟨s,⟨h1,h2⟩,h3⟩ := h hex
    exact ⟨hn,s,h1,h2,h3⟩

/-- Five frames are taken and given back in an order that leaves frames 1 and 2 free, with the
hint at 2. -/
def straddling : List Call :=
  [.addRegion 0 20480,.allocFrames 5,.freeFrames 4096 1,.freeFrames 12288 2,.allocFrames 2,
    .freeFrames 8192 1]

set_option maxRecDepth 20000 in
theorem run_across_hint_missed : (straddling.foldl step new).FreeRun 1 2 ∧
    ((straddling.foldl step new).allocFrames 2).isSome = false := by
  have hword : (straddling.foldl step new).bitmap 0 = ~~~ 6#64 := by decide +kernel
  have hrest : ∀ w, (straddling.foldl step new).bitmap (w + 1) = BitVec.allOnes 64 := by
    intro w
    with_unfolding_all rfl
  have hhint : (straddling.foldl step new).hintFor 2 = 2 := by decide +kernel
  have hbit : ∀ i, bitAt (straddling.foldl step new).bitmap i = !decide (i = 1 ∨ i = 2) := by
    intro i
    unfold bitAt
    cases hi : i / 64 with
    | zero =>
      have hsmall : ∀ i < 64, (~~~ 6#64).getLsbD i = !decide (i = 1 ∨ i = 2) := by decide +kernel
      have hlt : i < 64 := by omega
      rw [hword,Nat.mod_eq_of_lt hlt,hsmall i hlt]
    | succ w =>
      rw [hrest,BitVec.getLsbD_allOnes,decide_eq_true (Nat.mod_lt i (by decide))]
      have hno : ¬ (i = 1 ∨ i = 2) := by omega
      simp [hno]
  refine ⟨⟨by decide,?_⟩,Bool.eq_false_iff.mpr fun hsome => ?_⟩
  · intro i h1 h2
    rw [hbit]
    simp
    omega
  · obtain ⟨-,s,-,hrun,hs⟩ := (alloc_frames_isSome (by rw [hhint]; decide)).mp hsome
    rw [hhint] at hs
    have h0 := hrun s .refl (by omega)
    have h1 := hrun (s + 1) (by omega) (by omega)
    rw [hbit] at h0 h1
    simp only [Bool.not_eq_false',decide_eq_true_eq] at h0 h1
    omega

/-- After any calls, frames handed out were all free, and no other frame changes. -/
theorem alloc_frames_exclusive (calls : List Call)
    (h : (calls.foldl step new).allocFrames n = some (phys,a)) : ∃ s, phys = s * frameSize ∧
      (calls.foldl step new).FreeRun s n ∧ ∀ g, a.isUsed g =
        if s ≤ g ∧ g < s + n then true else (calls.foldl step new).isUsed g := by
  have hint := (hinted_run calls (a := new) ⟨Nat.zero_le _,Nat.zero_le _⟩).hintFor n
  obtain ⟨s,hs,-,hcap,hrun,rfl⟩ := alloc_frames_spec h hint
  refine ⟨s,hs,⟨hcap,hrun⟩,fun g => ?_⟩
  rw [isUsed,fillRange_bitAt]
  rfl

theorem alloc_frames_exclusive_one :
    ∃ s, 4096 = s * frameSize ∧ (straddling.foldl step new).FreeRun s 1 := by
  have h : (straddling.foldl step new).allocFrames 1 = some (4096,_) := rfl
  obtain ⟨s,hs,hr,-⟩ := alloc_frames_exclusive straddling h
  exact ⟨s,hs,hr⟩

end FrameAllocator

end Miku.Mm
