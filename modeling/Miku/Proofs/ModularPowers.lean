import Mathlib.Data.Nat.ModEq
import Mathlib.Tactic.Ring
import Miku.Net.TlsBignum

/-! The loops over limbs and bits against the numbers that the limbs stand for. -/

namespace Miku.Net.TlsBignum
open List

/-- The number that limbs stand for. -/
def val : List UInt32 → Nat
  | d :: r => d.toNat + 4294967296 * val r
  | [] => 0

theorem val_lt (l : List UInt32) : val l < 4294967296 ^ l.length := by
  induction l with
  | nil => decide
  | cons d l ih =>
    have := d.toNat_lt
    rw [val,length_cons,Nat.pow_succ]
    omega

theorem val_zeros : val (.replicate n 0) = 0 := by
  induction n with
  | zero => rfl
  | succ n ih => simp [replicate_succ,val,ih]

theorem bnCmp_eq (h : a.length = b.length) : bnCmp a b = compare (val a) (val b) := by
  fun_induction bnCmp a b with
  | case1 x a y b ih =>
    have := x.toNat_lt
    have := y.toNat_lt
    rw [ih (Nat.succ.inj h),val,val]
    rcases Nat.lt_trichotomy (val a) (val b) with hv | hv | hv
    · rw [Nat.compare_eq_lt.mpr hv]
      exact (Nat.compare_eq_lt.mpr (by omega)).symm
    · rw [hv]
      simp [compare,compareOfLessAndEq]
    · rw [Nat.compare_eq_gt.mpr hv]
      exact (Nat.compare_eq_gt.mpr (by omega)).symm
  | case2 | case3 => simp_all [eq_comm,val]

/-- A borrow out of the highest limb is one more of what does not fit. -/
theorem bnSub_spec (h : a.length = b.length) (hc : c ≤ 1) :
    (bnSub c a b).length = a.length ∧
    ∃ o ≤ 1, val (bnSub c a b) + val b + c = val a + o * 4294967296 ^ a.length := by
  fun_induction bnSub c a b with
  | case1 c x a y b hlt ih | case2 c x a y b hlt ih =>
    have := x.toNat_lt
    have := y.toNat_lt
    obtain ⟨hl,o,ho,he⟩ := ih (Nat.succ.inj h) (by decide)
    refine ⟨by simp [hl],o,ho,?_⟩
    simp only [val,length_cons,Nat.pow_succ,UInt32.toNat_ofNat',← Nat.mul_assoc]
    omega
  | case3 | case4 => simp_all [eq_comm,val]

/-- The carry out of a row goes into a limb still zero. -/
theorem mulRow_spec (h : p.length = b.length) (hc : c < 4294967296) :
    ∃ q, mulRow x c b (p ++ 0 :: z) = q ++ z ∧ q.length = b.length + 1 ∧
      val q = x.toNat * val b + val p + c := by
  induction b generalizing p c with
  | nil =>
    cases length_eq_zero_iff.mp h
    exact ⟨[.ofNat c],by simp [mulRow],rfl,by simp [val]; omega⟩
  | cons y b ih =>
    cases p with
    | nil => cases h
    | cons d p =>
      have hd := d.toNat_lt
      have hxy : x.toNat * y.toNat ≤ 4294967295 * 4294967295 :=
        Nat.mul_le_mul (Nat.le_of_lt_succ x.toNat_lt) (Nat.le_of_lt_succ y.toNat_lt)
      -- the largest product with both summands still has 64 bits
      have hp := Nat.mod_eq_of_lt (b := 18446744073709551616)
        (show x.toNat * y.toNat + d.toNat + c < _ by omega)
      obtain ⟨q,hq,hl,hv⟩ := ih (c := (x.toNat * y.toNat + d.toNat + c) / 4294967296)
        (Nat.succ.inj h) (by omega)
      refine ⟨_ :: q,by rw [cons_append,mulRow,hp,hq]; rfl,by simp [hl],?_⟩
      rw [val,val,val,hv,UInt32.toNat_ofNat',Nat.mul_add x.toNat,Nat.mul_left_comm x.toNat]
      omega

theorem val_mulRows (h : p.length = b.length) :
    val (mulRows b a (p ++ .replicate a.length 0)) = val a * val b + val p := by
  induction a generalizing p with
  | nil => simp [mulRows,val]
  | cons x a ih =>
    obtain ⟨q,hq,hl,hv⟩ := mulRow_spec (x := x) (z := .replicate a.length 0) h (c := 0) (by decide)
    cases q with
    | nil => cases hl
    | cons d q =>
      rw [length_cons,replicate_succ,mulRows,hq]
      dsimp only [cons_append]
      rw [val] at hv
      rw [val,ih (Nat.succ.inj hl),val,Nat.mul_add,Nat.add_mul,Nat.mul_assoc]
      omega

/-- The remainder of `v`, with the limb above it at zero. -/
def Rem (n rem : List UInt32) (v : Nat) : Prop :=
  ∃ t, rem = t ++ [0] ∧ t.length = limbs ∧ val t = v % val n

theorem shiftIn_spec (hc : c ≤ 1) : ∃ temp hi, shiftIn c (t ++ [0]) = temp ++ [hi] ∧
    temp.length = t.length ∧ hi.toNat ≤ 1 ∧
      val temp + hi.toNat * 4294967296 ^ t.length = 2 * val t + c := by
  induction t generalizing c with
  | nil => exact ⟨[],.ofNat c,by simp [shiftIn],rfl,by simp; omega,by simp [val]; omega⟩
  | cons d t ih =>
    have := d.toNat_lt
    obtain ⟨temp,hi,hs,hl,hhi,he⟩ := @ih (d.toNat / 2147483648) (by omega)
    refine ⟨_ :: temp,hi,by rw [cons_append,shiftIn,hs]; rfl,by simp [hl],hhi,?_⟩
    simp only [val,length_cons,Nat.pow_succ,UInt32.toNat_ofNat',← Nat.mul_assoc]
    omega

section
variable {n : List UInt32} (hn : n.length = limbs) (h0 : 0 < val n)
include hn h0

theorem Rem.bit (h : Rem n rem v) (hb : b ≤ 1) : Rem n (reduceBit n rem b) (2 * v + b) := by
  obtain ⟨t,rfl,ht,hv⟩ := h
  obtain ⟨temp,hi,hs,hl,hhi,he⟩ := shiftIn_spec (t := t) hb
  rw [ht] at hl he
  obtain ⟨hsub,c,hc,hval⟩ := bnSub_spec (hl.trans hn.symm) (Nat.zero_le 1)
  have hr := val_lt (bnSub 0 temp n)
  have hnv := val_lt n
  rw [hsub] at hr
  rw [hl] at hr hval hsub
  rw [hn] at hnv
  have hmod : (2 * v + b) % val n = (2 * val t + b) % val n := by
    rw [hv]
    simp [Nat.add_mod,Nat.mul_mod]
  have htn : val t < val n := hv ▸ Nat.mod_lt v h0
  have hz : hi = 0 ↔ hi.toNat = 0 := UInt32.toNat_inj.symm
  have hget : (temp ++ [hi]).getD limbs 0 = hi := by simp [← hl]
  unfold reduceBit
  dsimp only
  rw [hs,take_left' hl,hget,bnCmp_eq (hl.trans hn.symm),Rem,hmod]
  simp only [ne_eq,hz,Nat.compare_eq_lt]
  split
  · have : 2 * val t + b = val (bnSub 0 temp n) + val n := by
      obtain hk | hk : hi.toNat = 0 ∨ hi.toNat = 1 := by omega
      all_goals obtain rfl | rfl : c = 0 ∨ c = 1 := by omega
      all_goals rw [hk] at he; omega
    exact ⟨_,rfl,hsub,by rw [this,Nat.add_mod_right,Nat.mod_eq_of_lt (by omega)]⟩
  · have hk : hi.toNat = 0 := by omega
    rw [hk] at he
    exact ⟨temp,by rw [hz.mpr hk],hl,by rw [Nat.mod_eq_of_lt] <;> omega⟩

theorem Rem.limb (h : Rem n rem v) :
    Rem n (reduceLimb n d k rem) (v * 2 ^ k + d.toNat % 2 ^ k) := by
  induction k generalizing rem v with
  | zero => simpa [reduceLimb,Nat.mod_one] using h
  | succ k ih =>
    have := ih (h.bit hn h0 (b := d.toNat / 2 ^ k % 2) (by omega))
    rw [reduceLimb,Nat.mod_pow_succ]
    convert this using 1
    ring

theorem rem_reduceLimbs (x : List UInt32) : Rem n (reduceLimbs n x) (val x) := by
  induction x with
  | nil => exact ⟨.replicate limbs 0,rfl,length_replicate,by simp [val_zeros,val]⟩
  | cons d x ih =>
    have := ih.limb hn h0 (d := d) (k := 32)
    rw [Nat.mod_eq_of_lt d.toNat_lt] at this
    rw [val,Nat.add_comm,Nat.mul_comm]
    exact this

theorem bnMulmod_spec (ha : a.length = limbs) (hb : b.length = limbs) :
    (bnMulmod a b n).length = limbs ∧ val (bnMulmod a b n) = val a * val b % val n := by
  obtain ⟨t,ht,hl,hv⟩ := rem_reduceLimbs hn h0 (bnMulFull a b)
  rw [bnMulmod,bnReduceDouble,ht,take_left' hl]
  have hm := val_mulRows (a := a) (p := .replicate limbs 0) (length_replicate.trans hb.symm)
  rw [ha,replicate_append_replicate,val_zeros] at hm
  exact ⟨hl,hv.trans (congrArg (· % val n) hm)⟩

theorem val_powLoop (hr : r.length = limbs) (hb : b.length = limbs) (hlt : val r < val n) :
    val (powLoop n r b e) = val r * val b ^ e % val n := by
  induction e using Nat.strongRecOn generalizing r b with
  | ind e ih =>
    rw [powLoop]
    by_cases he : e = 0
    · rw [if_pos he,he,Nat.pow_zero,Nat.mul_one,Nat.mod_eq_of_lt hlt]
    · obtain ⟨hbl,hbv⟩ := bnMulmod_spec hn h0 hb hb
      obtain ⟨hrl,hrv⟩ := bnMulmod_spec hn h0 hr hb
      have hpow : (val b * val b % val n) ^ (e / 2) ≡ (val b * val b) ^ (e / 2) [MOD val n] :=
        (Nat.mod_modEq _ _).pow _
      have hsq : (val b * val b) ^ (e / 2) = val b ^ (2 * (e / 2)) := by rw [pow_mul,pow_two]
      rw [if_neg he]
      by_cases hodd : e % 2 ≠ 0
      · rw [if_pos hodd,ih (e / 2) (by omega) hrl hbl (hrv ▸ Nat.mod_lt _ h0),hbv,hrv]
        refine ((Nat.mod_modEq _ _).mul hpow).trans ?_
        rw [hsq,Nat.mul_assoc,← Nat.pow_succ',show (2 * (e / 2)).succ = e by omega]
      · rw [if_neg hodd,ih (e / 2) (by omega) hr hbl hlt,hbv]
        refine (hpow.mul_left _).trans ?_
        rw [hsq,show 2 * (e / 2) = e by omega]

end

/-- Products and powers modulo `n`, for numbers that need not be reduced. -/
theorem bignum_exact (a b n : List UInt32) (ha : a.length = limbs) (hb : b.length = limbs)
    (hn : n.length = limbs) (h1 : 1 < val n) (e : UInt32) :
    val (bnMulmod a b n) = val a * val b % val n ∧
      val (bnPowmodU32 b e n) = val b ^ e.toNat % val n := by
  have h0 := Nat.zero_lt_of_lt h1
  refine ⟨(bnMulmod_spec hn h0 ha hb).2,?_⟩
  have hone : val (1 :: .replicate (limbs - 1) 0) = 1 := by simp [val,val_zeros]
  rw [bnPowmodU32,val_powLoop hn h0 rfl hb (hone ▸ h1),hone,Nat.one_mul]

theorem bignum_exact_ones : let x := .replicate limbs 1
    val (bnMulmod x x x) = val x * val x % val x :=
  (bignum_exact _ _ _ rfl rfl rfl (by decide) 1).1

end Miku.Net.TlsBignum
