import Mathlib.Data.Bool.Basic

/-! Cyclic redundancy codes: the register that divides the message bit by bit, and the reflected
form of it that takes a byte at a time. -/

namespace Miku.Lib
open List

/-- A bit of the message goes into the register; `g` is the generator without its first term. -/
def crcShift (g reg : BitVec w) (bit : Bool) : BitVec w :=
  if (reg.msb ^^ bit) = true then (reg <<< 1) ^^^ g else reg <<< 1

/-- The bits of the bytes in the order in which they are sent, the lowest first. -/
def sentBits (bs : List UInt8) : List Bool :=
  bs.flatMap fun b => (range 8).map fun i => b.toBitVec.getLsbD i

/-- The code of a message: all ones before it, complemented and reflected behind it. -/
def crcOf (g : BitVec w) (bs : List UInt8) : BitVec w :=
  ~~~((sentBits bs).foldl (crcShift g) (BitVec.allOnes w)).reverse

/-- The CRC-32 of IEEE 802.3. -/
def ieeeCrc32 (bs : List UInt8) : UInt32 := ⟨crcOf 0x04C11DB7 bs⟩

/-- A step of the reflected register; `p` is the reflected generator. -/
def reflectedShift (p c : BitVec w) : BitVec w :=
  if c.getLsbD 0 = true then p ^^^ (c >>> 1) else c >>> 1

def reflectedShifts (p : BitVec w) : Nat → BitVec w → BitVec w
  | 0, c => c
  | n + 1, c => reflectedShift p (reflectedShifts p n c)

variable {w : Nat} {g p c y : BitVec w}

/-- What has a low bit of 0 only moves. -/
theorem reflectedShift_xor (h : y.getLsbD 0 = false) :
    reflectedShift p (c ^^^ y) = reflectedShift p c ^^^ (y >>> 1) := by
  simp only [reflectedShift,BitVec.getLsbD_xor,h,Bool.xor_false,BitVec.ushiftRight_xor_distrib]
  split
  · rw [BitVec.xor_assoc]
  · rfl

theorem reflectedShifts_xor (h : ∀ i < n, y.getLsbD i = false) :
    reflectedShifts p n (c ^^^ y) = reflectedShifts p n c ^^^ (y >>> n) := by
  induction n with
  | zero => simp [reflectedShifts]
  | succ n ih =>
    rw [reflectedShifts,ih fun i hi => h i (by omega),reflectedShift_xor,reflectedShifts,
      BitVec.shiftRight_add]
    simpa using h n (by omega)

/-- A bit at the end of a word. -/
def lowBit (bit : Bool) : BitVec w := (BitVec.ofBool bit).setWidth w

theorem getLsbD_lowBit : (lowBit bit : BitVec w).getLsbD i = (decide (i < w) && decide (i = 0) && bit) := by
  simp [lowBit,BitVec.getLsbD_setWidth,BitVec.getLsbD_ofBool]
  grind

theorem lowBit_shiftRight : (lowBit bit : BitVec w) >>> 1 = 0#w := by
  apply BitVec.eq_of_getLsbD_eq
  intro i hi
  simp [getLsbD_lowBit]

theorem reverse_shiftLeft (x : BitVec w) : (x <<< 1).reverse = x.reverse >>> 1 := by
  apply BitVec.eq_of_getLsbD_eq
  intro i hi
  simp [BitVec.getLsbD_reverse,BitVec.getMsbD_shiftLeft,Nat.add_comm]

theorem reverse_xor (x y : BitVec w) : (x ^^^ y).reverse = x.reverse ^^^ y.reverse := by
  apply BitVec.eq_of_getLsbD_eq
  intro i hi
  simp [BitVec.getLsbD_reverse,BitVec.getMsbD_xor]

theorem reverse_crcShift (hw : 0 < w) {reg : BitVec w} : (crcShift g reg bit).reverse =
    reflectedShift g.reverse (reg.reverse ^^^ lowBit bit) := by
  have hlow : (reg.reverse ^^^ lowBit bit).getLsbD 0 = (reg.msb ^^ bit) := by
    rw [BitVec.getLsbD_xor,BitVec.getLsbD_reverse,getLsbD_lowBit]
    simp [hw,BitVec.msb]
  rw [crcShift,reflectedShift,hlow,BitVec.ushiftRight_xor_distrib,lowBit_shiftRight,
    BitVec.xor_zero,← reverse_shiftLeft]
  split
  · rw [reverse_xor,BitVec.xor_comm]
  · rfl

/-- The first `n` bits of `b`, one by one, are `n` steps with all of them at once. -/
theorem reverse_foldl_bits (hw : 0 < w) (b : BitVec w) {reg : BitVec w} :
    (((range n).map fun i => b.getLsbD i).foldl (crcShift g) reg).reverse ^^^ (b >>> n) =
      reflectedShifts g.reverse n (reg.reverse ^^^ b) := by
  induction n with
  | zero => simp [reflectedShifts]
  | succ n ih =>
    have hsplit : (b >>> n) = lowBit (b.getLsbD n) ^^^ ((b >>> n) ^^^ lowBit (b.getLsbD n)) := by
      rw [BitVec.xor_comm,BitVec.xor_assoc,BitVec.xor_self,BitVec.xor_zero]
    have hlow : ((b >>> n) ^^^ lowBit (b.getLsbD n)).getLsbD 0 = false := by
      rw [BitVec.getLsbD_xor,getLsbD_lowBit]
      simp [hw]
    rw [reflectedShifts,← ih,hsplit,← BitVec.xor_assoc,reflectedShift_xor hlow,range_succ,
      map_append,foldl_append,BitVec.ushiftRight_xor_distrib,lowBit_shiftRight,
      BitVec.xor_zero,← BitVec.shiftRight_add]
    simp only [map_cons,map_nil,foldl_cons,foldl_nil]
    rw [reverse_crcShift hw]

/-- A byte in the reflected register. -/
def reflectedByte (p c : BitVec w) (b : UInt8) : BitVec w :=
  reflectedShifts p 8 (c ^^^ b.toBitVec.setWidth w)

theorem reverse_foldl_sentBits (hw : 8 ≤ w) {reg : BitVec w} (bs : List UInt8) :
    ((sentBits bs).foldl (crcShift g) reg).reverse =
      bs.foldl (reflectedByte g.reverse) reg.reverse := by
  induction bs generalizing reg with
  | nil => rfl
  | cons b bs ih =>
    have hbits : ((range 8).map fun i => b.toBitVec.getLsbD i) =
        (range 8).map fun i => (b.toBitVec.setWidth w).getLsbD i := by
      refine map_congr_left fun i hi => ?_
      have := mem_range.mp hi
      simp [show i < w by omega]
    have hhigh : b.toBitVec.setWidth w >>> 8 = 0#w := by
      apply BitVec.eq_of_getLsbD_eq
      intro i hi
      simp
    rw [sentBits,flatMap_cons,foldl_append,← sentBits,ih,foldl_cons,hbits]
    congr 1
    rw [reflectedByte,← reverse_foldl_bits (by omega),hhigh,BitVec.xor_zero]

theorem crcOf_eq (hw : 8 ≤ w) (bs : List UInt8) :
    crcOf g bs = ~~~bs.foldl (reflectedByte g.reverse) (BitVec.allOnes w) := by
  have hones : (BitVec.allOnes w).reverse = BitVec.allOnes w := by
    apply BitVec.eq_of_getLsbD_eq
    intro i hi
    rw [BitVec.getLsbD_reverse,BitVec.getMsbD_eq_getLsbD,BitVec.getLsbD_allOnes,
      BitVec.getLsbD_allOnes]
    simp [hi]
    omega
  rw [crcOf,reverse_foldl_sentBits hw,hones]

/-- The steps of the lowest byte can come from a table. -/
theorem reflectedShifts_table (m : BitVec w) (hm : ∀ i, m.getLsbD i = decide (i < 8 ∧ i < w)) :
    reflectedShifts p 8 c = reflectedShifts p 8 (c &&& m) ^^^ (c >>> 8) := by
  have hsplit : c = (c &&& m) ^^^ (c &&& ~~~m) := by
    apply BitVec.eq_of_getLsbD_eq
    intro i hi
    simp [hi]
    grind
  have hshift : (c &&& ~~~m) >>> 8 = c >>> 8 := by
    apply BitVec.eq_of_getLsbD_eq
    intro i hi
    simp [hm]
    grind
  have hclear : ∀ i < 8, (c &&& ~~~m).getLsbD i = false := by
    intro i hi
    simp [hm,hi]
  calc reflectedShifts p 8 c = reflectedShifts p 8 ((c &&& m) ^^^ (c &&& ~~~m)) := by rw [← hsplit]
    _ = reflectedShifts p 8 (c &&& m) ^^^ (c >>> 8) := by rw [reflectedShifts_xor hclear,hshift]

end Miku.Lib
