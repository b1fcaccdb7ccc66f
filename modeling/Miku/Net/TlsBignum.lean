import Mathlib.Algebra.Ring.Nat

/-! The arithmetic of `tls_bignum.rs`: numbers of 64 limbs of 32 bits, the lowest first. -/

namespace Miku.Net.TlsBignum

def limbs : Nat := 64

/-- The highest limbs are compared first. -/
def bnCmp : List UInt32 → List UInt32 → Ordering
  | x :: a, y :: b => (bnCmp a b).then (compare x.toNat y.toNat)
  | [], _ | _, [] => .eq

def bnSub (borrow : Nat) : List UInt32 → List UInt32 → List UInt32
  | x :: a, y :: b =>
    if x.toNat < y.toNat + borrow then
      .ofNat (x.toNat + 4294967296 - (y.toNat + borrow)) :: bnSub 1 a b
    else .ofNat (x.toNat - (y.toNat + borrow)) :: bnSub 0 a b
  | [], _ | _, [] => []

/-- One row of the product, added to the limbs of the result from the row's place on. -/
def mulRow (x : UInt32) (carry : Nat) : List UInt32 → List UInt32 → List UInt32
  | y :: b, d :: r =>
    let prod := (x.toNat * y.toNat + d.toNat + carry) % 18446744073709551616
    .ofNat prod :: mulRow x (prod / 4294967296) b r
  | [], d :: r => (d + .ofNat carry) :: r
  | _, [] => []

/-- The rows from one place on; `r` are the limbs of the result from there. -/
def mulRows (b : List UInt32) : List UInt32 → List UInt32 → List UInt32
  | x :: a, r =>
    match mulRow x 0 b r with
    | d :: r => d :: mulRows b a r
    | [] => []
  | [], r => r

def bnMulFull (a b : List UInt32) : List UInt32 := mulRows b a (.replicate (2 * limbs) 0)

/-- The remainder moves up by one bit, and `carry` comes in. -/
def shiftIn (carry : Nat) : List UInt32 → List UInt32
  | d :: r => .ofNat (2 * d.toNat + carry) :: shiftIn (d.toNat / 2147483648) r
  | [] => []

def reduceBit (n rem : List UInt32) (bit : Nat) : List UInt32 :=
  let rem := shiftIn bit rem
  let temp := rem.take limbs
  if rem.getD limbs 0 ≠ 0 ∨ bnCmp temp n ≠ .lt then bnSub 0 temp n ++ [0] else rem

/-- The lowest bits of a limb, as many as the last argument says, from the highest on. -/
def reduceLimb (n : List UInt32) (d : UInt32) : Nat → List UInt32 → List UInt32
  | bit + 1, rem => reduceLimb n d bit (reduceBit n rem (d.toNat / 2 ^ bit % 2))
  | 0, rem => rem

/-- The remainder after all limbs, the highest of which go in first. -/
def reduceLimbs (n : List UInt32) : List UInt32 → List UInt32
  | d :: x => reduceLimb n d 32 (reduceLimbs n x)
  | [] => .replicate (limbs + 1) 0

def bnReduceDouble (x n : List UInt32) : List UInt32 := (reduceLimbs n x).take limbs

def bnMulmod (a b n : List UInt32) : List UInt32 := bnReduceDouble (bnMulFull a b) n

def powLoop (n result b : List UInt32) (e : Nat) : List UInt32 :=
  if e = 0 then result
  else powLoop n (if e % 2 ≠ 0 then bnMulmod result b n else result) (bnMulmod b b n) (e / 2)

def bnPowmodU32 (base : List UInt32) (exp : UInt32) (n : List UInt32) : List UInt32 :=
  powLoop n (1 :: .replicate (limbs - 1) 0) base exp.toNat

end Miku.Net.TlsBignum
