import Miku.Lib.Checked

/-! The RSA key of a certificate. -/

namespace Miku.Net.Tls
open Lib

structure RsaPublicKey where
  n : Nat
  e : Nat
  nLen : Nat

def beNat (l : List UInt8) : Nat := l.foldl (fun n b => n * 256 + b.toNat) 0

/-- Of more than 256 bytes the last are taken. -/
def bnFromBytesBe (bytes : List UInt8) : Nat := beNat (bytes.drop (bytes.length - 256))

/-- The loop over `n` bytes of a length or an exponent. -/
def beAt (d : List UInt8) (p n : Nat) : Checked Nat :=
  (List.range n).foldlM (fun l i => do return l * 256 + (← idx d (p + i)).toNat) 0

/-- The length, and the place behind it. -/
def readLen (d : List UInt8) (p : Nat) : Parse (Nat × Nat) := do
  guard (p < d.length)
  let b ← liftM (idx d p)
  if b &&& 0x80 = 0 then return (b.toNat,p + 1)
  let nb := (b &&& 0x7f).toNat
  guard (nb ≤ 4 ∧ p + 1 + nb ≤ d.length)
  return (← beAt d (p + 1) nb,p + 1 + nb)

def expect (d : List UInt8) (p : Nat) (tag : UInt8) : Parse Nat := do
  guard (p < d.length)
  let b ← liftM (idx d p)
  guard (b = tag)
  return p + 1

def rsaOid : List UInt8 := [0x2a,0x86,0x48,0x86,0xf7,0x0d,0x01,0x01,0x01]

def oidOffset (cert : List UInt8) : Option Nat :=
  (List.range (cert.length - 8)).find? fun i => (cert.drop i).take 9 = rsaOid

/-- The next bit string, among the next `n` bytes. -/
def skipTo (cert : List UInt8) : Nat → Nat → Checked Nat
  | 0, p => return p
  | n + 1, p => do if (← idx cert p) = 0x03 then return p else skipTo cert n (p + 1)

/-- `parse_rsa_public_key` as far as the length of the modulus. -/
def findModulus (cert : List UInt8) : Parse (Nat × Nat) := do
  let oidOff ← OptionT.mk (pure (oidOffset cert))
  let p ← skipTo cert (min cert.length (oidOff + 64) - (oidOff + 9)) (oidOff + 9)
  guard (p < cert.length)
  let p ← expect cert (← readLen cert (p + 1)).2 0x00
  let p ← expect cert p 0x30
  let p ← expect cert (← readLen cert p).2 0x02
  readLen cert p

def parseRsaPublicKey (cert : List UInt8) : Parse RsaPublicKey := do
  let (nLen,p) ← findModulus cert
  let stop ← fit usize (p + nLen)
  guard (stop ≤ cert.length)
  let b ← liftM (idx cert p)
  let start := if b = 0x00 then p + 1 else p
  let n ← slice cert start stop
  let p ← expect cert stop 0x02
  let (eLen,p) ← readLen cert p
  guard ((← fit usize (p + eLen)) ≤ cert.length)
  return ⟨bnFromBytesBe n,← beAt cert p (min eLen 4),stop - start⟩

end Miku.Net.Tls
