import Mathlib.Logic.Function.Basic

namespace Miku.Lib
open List

/-- The bytes of a buffer, a disk block or a file, counted from its start. -/
abbrev Bytes := Nat → UInt8

def zeroBytes : Bytes := fun _ => 0

/-- `b[at_..at_ + src.len()].copy_from_slice(src)`. -/
def put (b : Bytes) (at_ : Nat) (src : List UInt8) : Bytes :=
  fun i => if at_ ≤ i then (src[i - at_]?).getD (b i) else b i

/-- `dst[at_..at_ + n].copy_from_slice(&src[off..off + n])`. -/
def splice (dst : Bytes) (at_ : Nat) (src : Bytes) (off n : Nat) : Bytes :=
  fun i => if at_ ≤ i ∧ i < at_ + n then src (off + (i - at_)) else dst i

def le16 (b : Bytes) (o : Nat) : Nat := (b o).toNat + 256 * (b (o + 1)).toNat

def le32 (b : Bytes) (o : Nat) : Nat := le16 b o + 65536 * le16 b (o + 2)

def le64 (b : Bytes) (o : Nat) : Nat := le32 b o + 4294967296 * le32 b (o + 4)

def be32 (b : Bytes) (o : Nat) : Nat :=
  16777216 * (b o).toNat + 65536 * (b (o + 1)).toNat + 256 * (b (o + 2)).toNat +
    (b (o + 3)).toNat

def le16Bytes (n : Nat) : List UInt8 := [UInt8.ofNat n,UInt8.ofNat (n / 256)]

def le32Bytes (n : Nat) : List UInt8 :=
  [UInt8.ofNat n,UInt8.ofNat (n / 256),UInt8.ofNat (n / 65536),UInt8.ofNat (n / 16777216)]

def le64Bytes (n : Nat) : List UInt8 := le32Bytes n ++ le32Bytes (n / 4294967296)

def be32Bytes (n : Nat) : List UInt8 :=
  [UInt8.ofNat (n / 16777216),UInt8.ofNat (n / 65536),UInt8.ofNat (n / 256),UInt8.ofNat n]

/-- `src` stands at `at_`. -/
def Holds (b : Bytes) (at_ : Nat) (src : List UInt8) : Prop :=
  ∀ (k : Nat) (h : k < src.length), b (at_ + k) = src[k]

variable {src : List UInt8}

@[simp] theorem length_le16Bytes : (le16Bytes n).length = 2 := rfl
@[simp] theorem length_le32Bytes : (le32Bytes n).length = 4 := rfl
@[simp] theorem length_le64Bytes : (le64Bytes n).length = 8 := rfl
@[simp] theorem length_be32Bytes : (be32Bytes n).length = 4 := rfl

theorem put_other (h : i < at_ ∨ at_ + src.length ≤ i) : put b at_ src i = b i := by
  simp only [put]
  split
  · rw [getElem?_eq_none (by omega),Option.getD_none]
  · rfl

theorem put_at (k : Nat) (h : k < src.length) : put b at_ src (at_ + k) = src[k] := by
  simp only [put,Nat.le_add_right,↓reduceIte,Nat.add_sub_cancel_left,
    getElem?_eq_getElem h,Option.getD_some]

theorem put_append :
    put b at_ (src ++ src') = put (put b at_ src) (at_ + src.length) src' := by
  funext i
  simp only [put]
  by_cases h : at_ ≤ i
  · by_cases h' : at_ + src.length ≤ i
    · rw [if_pos h,if_pos h',if_pos h,getElem?_append_right (by omega),
        getElem?_eq_none (by omega : src.length ≤ i - at_),Option.getD_none,Nat.sub_sub]
    · rw [if_pos h,if_neg h',if_pos h,getElem?_append_left (by omega)]
  · rw [if_neg h,if_neg (by omega),if_neg h]

variable {src' : List UInt8}

theorem put_comm (h : at_ + src.length ≤ i) :
    put (put b i src') at_ src = put (put b at_ src) i src' := by
  funext k
  by_cases hi : i ≤ k
  · rw [put_other (by omega)]
    simp only [put,hi,↓reduceIte,getElem?_eq_none (by omega : src.length ≤ k - at_),
      Option.getD_none,ite_self]
  · rw [put_other (b := put b at_ src) (by omega)]
    simp only [put,hi,↓reduceIte]

theorem splice_in {src : Bytes} (h : at_ ≤ i ∧ i < at_ + n) :
    splice dst at_ src off n i = src (off + (i - at_)) := by
  simp [splice,h]

theorem splice_other {src : Bytes} (h : i < at_ ∨ at_ + n ≤ i) :
    splice dst at_ src off n i = dst i := by
  simp only [splice]
  exact if_neg (by omega)

theorem le16_lt : le16 b o < 65536 := by
  have h0 := (b o).toNat_lt
  have h1 := (b (o + 1)).toNat_lt
  unfold le16
  omega

theorem be32_lt : be32 b o < 4294967296 := by
  have h0 := (b o).toNat_lt
  have h1 := (b (o + 1)).toNat_lt
  have h2 := (b (o + 2)).toNat_lt
  have h3 := (b (o + 3)).toNat_lt
  unfold be32
  omega

theorem le16_shift (h : ∀ k < 2, b (o + k) = c (o' + k)) : le16 b o = le16 c o' := by
  have h0 : b o = c o' := h 0 (by omega)
  simp [le16,h0,h 1 (by omega)]

theorem le32_shift (h : ∀ k < 4, b (o + k) = c (o' + k)) : le32 b o = le32 c o' := by
  have hlo : le16 b o = le16 c o' := le16_shift fun k hk => h k (by omega)
  have hhi : le16 b (o + 2) = le16 c (o' + 2) := le16_shift fun k hk => by
    rw [Nat.add_assoc,Nat.add_assoc]
    exact h (2 + k) (by omega)
  simp [le32,hlo,hhi]

theorem le16_congr (h : ∀ k < 2, b (o + k) = c (o + k)) : le16 b o = le16 c o := le16_shift h

theorem le32_congr (h : ∀ k < 4, b (o + k) = c (o + k)) : le32 b o = le32 c o := le32_shift h

theorem le16_of_le32 : le16 b o = le32 b o % 65536 ∧ le16 b (o + 2) = le32 b o / 65536 := by
  have := le16_lt (b := b) (o := o)
  unfold le32
  omega

theorem be32_congr (h : ∀ k < 4, b (o + k) = c (o + k)) : be32 b o = be32 c o := by
  have h0 : b o = c o := h 0 (by omega)
  simp [be32,h0,h 1 (by omega),h 2 (by omega),h 3 (by omega)]

theorem le16_put_other (h : o + 2 ≤ at_ ∨ at_ + src.length ≤ o) :
    le16 (put b at_ src) o = le16 b o :=
  le16_congr fun k hk => put_other (by omega)

theorem le32_put_other (h : o + 4 ≤ at_ ∨ at_ + src.length ≤ o) :
    le32 (put b at_ src) o = le32 b o :=
  le32_congr fun k hk => put_other (by omega)

theorem be32_put_other (h : o + 4 ≤ at_ ∨ at_ + src.length ≤ o) :
    be32 (put b at_ src) o = be32 b o :=
  be32_congr fun k hk => put_other (by omega)

@[simp] theorem le16_put_self : le16 (put b o (le16Bytes n)) o = n % 65536 := by
  have h0 : put b o (le16Bytes n) o = UInt8.ofNat n := put_at 0 (by simp)
  have h1 : put b o (le16Bytes n) (o + 1) = UInt8.ofNat (n / 256) := put_at 1 (by simp)
  simp only [le16,h0,h1,UInt8.toNat_ofNat']
  omega

@[simp] theorem le32_put_self : le32 (put b o (le32Bytes n)) o = n % 4294967296 := by
  have h0 : put b o (le32Bytes n) o = UInt8.ofNat n := put_at 0 (by simp)
  have h1 : put b o (le32Bytes n) (o + 1) = UInt8.ofNat (n / 256) := put_at 1 (by simp)
  have h2 : put b o (le32Bytes n) (o + 2) = UInt8.ofNat (n / 65536) := put_at 2 (by simp)
  have h3 : put b o (le32Bytes n) (o + 2 + 1) = UInt8.ofNat (n / 16777216) := put_at 3 (by simp)
  simp only [le32,le16,h0,h1,h2,h3,UInt8.toNat_ofNat']
  omega

@[simp] theorem be32_put_self : be32 (put b o (be32Bytes n)) o = n % 4294967296 := by
  have h0 : put b o (be32Bytes n) o = UInt8.ofNat (n / 16777216) := put_at 0 (by simp)
  have h1 : put b o (be32Bytes n) (o + 1) = UInt8.ofNat (n / 65536) := put_at 1 (by simp)
  have h2 : put b o (be32Bytes n) (o + 2) = UInt8.ofNat (n / 256) := put_at 2 (by simp)
  have h3 : put b o (be32Bytes n) (o + 3) = UInt8.ofNat n := put_at 3 (by simp)
  simp only [be32,h0,h1,h2,h3,UInt8.toNat_ofNat']
  omega

theorem holds_put : Holds (put b at_ src) at_ src := fun k h => put_at k h

theorem holds_nil : Holds b at_ [] := fun _ h => absurd h (Nat.not_lt_zero _)

theorem Holds.congr (h : Holds b at_ src)
    (hc : ∀ i, at_ ≤ i → i < at_ + src.length → c i = b i) : Holds c at_ src := by
  intro k hk
  rw [hc _ (by omega) (by omega)]
  exact h k hk

theorem Holds.put (h : Holds b at_ src)
    (hi : at_ + src.length ≤ i ∨ i + src'.length ≤ at_) : Holds (put b i src') at_ src :=
  h.congr fun _ h h' => put_other (by omega)

theorem holds_append :
    Holds b at_ (src ++ src') ↔ Holds b at_ src ∧ Holds b (at_ + src.length) src' := by
  constructor
  · intro h
    refine ⟨fun k hk => ?_,fun k hk => ?_⟩
    · rw [h k (by simp only [length_append]; omega),getElem_append_left hk]
    · rw [Nat.add_assoc,h _ (by simp only [length_append]; omega),getElem_append_right (by omega)]
      simp
  · rintro ⟨h,h'⟩ k hk
    by_cases hl : k < src.length
    · rw [h k hl,getElem_append_left hl]
    · rw [length_append] at hk
      have := h' (k - src.length) (by omega)
      rw [getElem_append_right (by omega),← this]
      congr 1
      omega

theorem le16_of_holds (h : Holds b o (le16Bytes n)) : le16 b o = n % 65536 := by
  rw [← le16_put_self (b := b) (o := o) (n := n)]
  have hp : Holds (put b o (le16Bytes n)) o (le16Bytes n) := holds_put
  exact le16_congr fun k hk => (h k hk).trans (hp k hk).symm

theorem le32_of_holds (h : Holds b o (le32Bytes n)) : le32 b o = n % 4294967296 := by
  rw [← le32_put_self (b := b) (o := o) (n := n)]
  have hp : Holds (put b o (le32Bytes n)) o (le32Bytes n) := holds_put
  exact le32_congr fun k hk => (h k hk).trans (hp k hk).symm

theorem holds_le32 : Holds b o (le32Bytes (le32 b o)) := by
  have h0 := (b o).toNat_lt
  have h1 := (b (o + 1)).toNat_lt
  have h2 := (b (o + 2)).toNat_lt
  have h3 := (b (o + 3)).toNat_lt
  intro k hk
  apply UInt8.toNat_inj.1
  obtain rfl | rfl | rfl | rfl : k = 0 ∨ k = 1 ∨ k = 2 ∨ k = 3 := by
    rw [length_le32Bytes] at hk
    omega
  all_goals
    simp only [le32Bytes,le32,le16,getElem_cons_zero,getElem_cons_succ,
      UInt8.toNat_ofNat',Nat.add_zero,Nat.add_assoc,Nat.reduceAdd]
    omega

theorem le64_of_holds (h : Holds b o (le64Bytes n)) : le64 b o = n % 18446744073709551616 := by
  obtain ⟨hlo,hhi⟩ := holds_append.1 h
  rw [length_le32Bytes] at hhi
  rw [le64,le32_of_holds hlo,le32_of_holds hhi]
  omega

theorem holds_flatMap {α : Type} {f : α → List UInt8} (hw : ∀ a, (f a).length = w)
    {l : List α} (h : Holds b o (l.flatMap f)) (k : Nat) (hk : k < l.length) :
    Holds b (o + w * k) (f l[k]) := by
  induction l generalizing o k with
  | nil => exact absurd hk (Nat.not_lt_zero _)
  | cons a l ih =>
    rw [flatMap_cons] at h
    obtain ⟨ha,hl⟩ := holds_append.1 h
    cases k with
    | zero => exact ha
    | succ k =>
      have := ih hl k (by simpa using hk)
      rw [hw a] at this
      rw [getElem_cons_succ,Nat.mul_succ,Nat.add_comm (w * k),← Nat.add_assoc]
      exact this

theorem le64_of_holds_flatMap {ws : List Nat} (h : Holds b o (ws.flatMap le64Bytes)) (k : Nat)
    (hk : k < ws.length) : le64 b (o + 8 * k) = ws[k] % 18446744073709551616 :=
  le64_of_holds (holds_flatMap (fun _ => length_le64Bytes) h k hk)

/-- A file as its users see it: bytes up to its size, and zeroes wherever it may grow. -/
structure ByteFile where
  size : Nat
  data : Bytes
  zero : ∀ i, size ≤ i → data i = 0

namespace ByteFile

variable {f g : ByteFile} {off n : Nat} {src : List UInt8}

theorem ext_data (hs : f.size = g.size) (hd : ∀ i, i < f.size → f.data i = g.data i) : f = g := by
  obtain ⟨size,data,zero⟩ := f
  obtain ⟨size',data',zero'⟩ := g
  obtain rfl : size = size' := hs
  have hdata : data = data' := by
    funext i
    by_cases hi : i < size
    · exact hd i hi
    · rw [zero i (by omega),zero' i (by omega)]
  subst hdata
  rfl

def empty : ByteFile := ⟨0,zeroBytes,fun _ _ => rfl⟩

/-- At most `n` bytes from `off` on. -/
def read (f : ByteFile) (off n : Nat) : List UInt8 :=
  (List.range (min n (f.size - off))).map fun i => f.data (off + i)

def write (f : ByteFile) (off : Nat) (src : List UInt8) : ByteFile where
  size := max f.size (off + src.length)
  data := put f.data off src
  zero := fun i hi => by
    rw [put_other (by omega)]
    exact f.zero i (by omega)

def resize (f : ByteFile) (n : Nat) : ByteFile where
  size := n
  data := fun i => if i < n then f.data i else 0
  zero := fun i hi => if_neg (by omega)

def contents (f : ByteFile) : List UInt8 := f.read 0 f.size

@[simp] theorem length_contents : f.contents.length = f.size := by simp [contents,read]

theorem getElem_contents (h : i < f.contents.length) : f.contents[i] = f.data i := by
  simp [contents,read]

theorem read_eq_contents : f.read off n = (f.contents.drop off).take n := by
  refine ext_getElem (by simp [read]) fun i hi hi' => ?_
  rw [getElem_take,getElem_drop,getElem_contents]
  simp [read]

theorem contents_write_end : (f.write f.size src).contents = f.contents ++ src := by
  refine ext_getElem (by simp [write]) fun i hi hi' => ?_
  rw [getElem_contents]
  by_cases h : i < f.size
  · rw [getElem_append_left (by simpa using h),getElem_contents]
    exact put_other (.inl h)
  · obtain ⟨k,rfl⟩ := Nat.exists_eq_add_of_le (Nat.le_of_not_lt h)
    have hk : k < src.length := by
      rw [length_append,length_contents] at hi'
      omega
    rw [getElem_append_right (by simp)]
    simp only [length_contents,Nat.add_sub_cancel_left]
    exact put_at k hk

end ByteFile

end Miku.Lib
