import Mathlib.Data.BitVec

namespace Miku.Lib.Bits

variable {w : Nat} {m : BitVec w}

theorem bit_of_disjoint (h : c &&& m = 0#w) (i : Nat) : (c.getLsbD i && m.getLsbD i) = false := by
  simpa using congrArg (fun v => v.getLsbD i) h

theorem bit_of_covered (h : c &&& m = m) (i : Nat) : m.getLsbD i = true → c.getLsbD i = true := by
  have hb := congrArg (fun v => v.getLsbD i) h
  simp only [BitVec.getLsbD_and] at hb
  revert hb
  cases c.getLsbD i <;> cases m.getLsbD i <;> simp

section

variable (x : BitVec w)
include x

theorem or_and_of_disjoint (h : c &&& m = 0#w) : (x ||| c) &&& m = x &&& m := by
  apply BitVec.eq_of_getLsbD_eq
  intro i _
  have hb := bit_of_disjoint h i
  simp only [BitVec.getLsbD_and,BitVec.getLsbD_or]
  revert hb
  cases c.getLsbD i <;> cases m.getLsbD i <;> simp

theorem and_not_and_of_disjoint (h : c &&& m = 0#w) : (x &&& ~~~c) &&& m = x &&& m := by
  apply BitVec.eq_of_getLsbD_eq
  intro i hi
  have hb := bit_of_disjoint h i
  simp only [BitVec.getLsbD_and,BitVec.getLsbD_not,hi,decide_true,Bool.true_and]
  revert hb
  cases c.getLsbD i <;> cases m.getLsbD i <;> simp

theorem or_and_of_covered (h : c &&& m = m) : (x ||| c) &&& m = m := by
  apply BitVec.eq_of_getLsbD_eq
  intro i _
  have hb := bit_of_covered h i
  simp only [BitVec.getLsbD_and,BitVec.getLsbD_or]
  revert hb
  cases c.getLsbD i <;> cases m.getLsbD i <;> simp

theorem and_not_and_of_covered (h : c &&& m = m) : (x &&& ~~~c) &&& m = 0#w := by
  apply BitVec.eq_of_getLsbD_eq
  intro i hi
  have hb := bit_of_covered h i
  simp only [BitVec.getLsbD_and,BitVec.getLsbD_not,hi,decide_true,Bool.true_and,
    BitVec.getLsbD_zero]
  revert hb
  cases c.getLsbD i <;> cases m.getLsbD i <;> simp

theorem and_and_of_sub (h : c &&& m = m) : (x &&& c) &&& m = x &&& m := by
  rw [BitVec.and_assoc,h]

theorem and_and_of_disjoint (h : c &&& m = 0#w) : (x &&& c) &&& m = 0#w := by
  rw [BitVec.and_assoc,h,BitVec.and_zero]

end

theorem bit_above_low (hm : m.toNat < 2 ^ n) (hi : n ≤ i) : m.getLsbD i = false :=
  Nat.testBit_lt_two_pow (Nat.lt_of_lt_of_le hm (Nat.pow_le_pow_right (by decide) hi))

theorem shiftLeft_and_low (x : BitVec w) (hm : m.toNat < 2 ^ n) : (x <<< n) &&& m = 0#w := by
  apply BitVec.eq_of_getLsbD_eq
  intro i hi
  rw [BitVec.getLsbD_and,BitVec.getLsbD_shiftLeft,BitVec.getLsbD_zero]
  by_cases hn : i < n
  · rw [decide_eq_true hn,Bool.not_true,Bool.and_false,Bool.false_and,Bool.false_and]
  · rw [bit_above_low hm (by omega),Bool.and_false]

end Miku.Lib.Bits
