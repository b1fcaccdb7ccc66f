import Mathlib.Data.List.Basic

/-! Computations that a fault can stop: an index or a slice out of range, a number that does
not fit its type, a loop that does not end. -/

namespace Miku.Lib

inductive Fault
  | index
  | slice
  | overflow
  | endless
  deriving DecidableEq, Repr

abbrev Checked (α : Type) := Except Fault α

variable {α β : Type}

instance instDecidableEqChecked [DecidableEq α] : DecidableEq (Checked α)
  | .ok a, .ok b => decidable_of_iff (a = b) (by simp)
  | .error e, .error f => decidable_of_iff (e = f) (by simp)
  | .ok _, .error _ => isFalse (by simp)
  | .error _, .ok _ => isFalse (by simp)

/-- `l[i]`. -/
def idx (l : List α) (i : Nat) : Checked α :=
  match l[i]? with
  | some a => .ok a
  | none => .error .index

/-- `l[a..b]`. -/
def slice (l : List α) (a b : Nat) : Checked (List α) :=
  if a ≤ b ∧ b ≤ l.length then .ok ((l.take b).drop a) else .error .slice

/-- `l[a..a + src.len()].copy_from_slice(src)`. -/
def store (l : List α) (a : Nat) (src : List α) : Checked (List α) :=
  if a + src.length ≤ l.length then .ok (l.take a ++ src ++ l.drop (a + src.length))
  else .error .slice

/-- A number that must be below `bound`. -/
def fit (bound n : Nat) : Checked Nat := if n < bound then .ok n else .error .overflow

/-- One more than the largest number of 64 bits. -/
def usize : Nat := 18446744073709551616

/-- A slice that fits in memory. -/
def Sized (l : List α) : Prop := l.length < 9223372036854775808

instance {l : List α} : Decidable (Sized l) := inferInstanceAs (Decidable (_ < _))

/-- `x` comes to a result, and the result meets `Q`. -/
def Ends (x : Checked α) (Q : α → Prop) : Prop := ∃ a, x = .ok a ∧ Q a

variable {l : List α}

theorem idx_eq (h : i < l.length := by omega) : idx l i = .ok l[i] := by
  simp only [idx,List.getElem?_eq_getElem h]

theorem idx_iff : idx l i = .ok a ↔ l[i]? = some a := by
  unfold idx
  split <;> simp [*]

theorem slice_eq (hab : a ≤ b := by omega) (hb : b ≤ l.length := by omega) :
    slice l a b = .ok ((l.take b).drop a) := if_pos ⟨hab,hb⟩

variable {src : List α}

theorem store_eq (h : a + src.length ≤ l.length) :
    store l a src = .ok (l.take a ++ src ++ l.drop (a + src.length)) := if_pos h

theorem length_store (h : store l a src = .ok out) : out.length = l.length := by
  unfold store at h
  split at h
  · obtain rfl := Except.ok.inj h
    simp only [List.length_append,List.length_take,List.length_drop]
    omega
  · cases h

theorem fit_eq (h : n < bound := by first | omega | (unfold usize; omega)) :
    fit bound n = .ok n := if_pos h

theorem of_fit (h : fit bound n = .ok m) : m = n := by
  unfold fit at h
  split at h <;> grind

theorem fit_error (h : bound ≤ n) : fit bound n = .error .overflow := if_neg (Nat.not_lt.2 h)

variable {f : α → Checked β}

@[simp] theorem ok_bind {a : α} : (Except.ok a >>= f) = f a := rfl

@[simp] theorem error_bind : (Except.error e >>= f) = .error e := rfl

theorem Ends.pure {a : α} (h : Q a) : Ends (Pure.pure a) Q := ⟨a,rfl,h⟩

theorem Ends.imp (h : Ends x Q) (hqr : ∀ a, Q a → R a) : Ends x R := by
  obtain ⟨a,ha,hq⟩ := h
  exact ⟨a,ha,hqr a hq⟩

theorem Ends.bind (h : Ends x fun a => Ends (f a) P) : Ends (x >>= f) P := by
  obtain ⟨a,rfl,b,hb,hp⟩ := h
  exact ⟨b,hb,hp⟩

theorem Ends.seq (h : Ends x Q) (hf : ∀ a, Q a → Ends (f a) P) : Ends (x >>= f) P :=
  .bind (h.imp hf)

theorem Ends.idx (h : i < l.length) (hq : Q l[i]) : Ends (idx l i) Q := ⟨l[i],idx_eq h,hq⟩

theorem Ends.slice (hab : a ≤ b) (hb : b ≤ l.length)
    (hp : P ((l.take b).drop a)) : Ends (slice l a b) P :=
  ⟨_,slice_eq hab hb,hp⟩

theorem Ends.store (h : a + src.length ≤ l.length)
    (hp : ∀ out, out.length = l.length → P out) : Ends (store l a src) P :=
  ⟨_,store_eq h,hp _ (length_store (store_eq h))⟩

theorem Ends.fit (hp : P n)
    (h : n < bound := by first | omega | (unfold usize; omega)) : Ends (fit bound n) P :=
  ⟨n,fit_eq h,hp⟩

/-- `x` comes to a result exactly if `p` holds, and then the result meets `Q`. -/
structure Exact (x : Checked α) (p : Prop) (Q : α → Prop) : Prop where
  ends : p → Ends x Q
  only : ∀ a, x = .ok a → p

section

variable {x : Checked α} {p q : Prop}

theorem Exact.of_ends (h : Ends x Q) (hp : p) : Exact x p Q := ⟨fun _ => h,fun _ _ => hp⟩

theorem Exact.of_error {e : Fault} (hp : ¬p) : Exact (.error e : Checked α) p Q :=
  ⟨fun h => absurd h hp,nofun⟩

theorem Exact.congr (h : Exact x p Q) (hpq : p ↔ q) (hr : ∀ a, Q a → R a) : Exact x q R :=
  ⟨fun hq => (h.ends (hpq.2 hq)).imp hr,fun a ha => hpq.1 (h.only a ha)⟩

theorem Exact.seq (h : Exact x p Q) (hf : p → ∀ a, Q a → Exact (f a) q R) :
    Exact (x >>= f) (p ∧ q) R := by
  refine ⟨fun hpq => .seq (h.ends hpq.1) fun a ha => (hf hpq.1 a ha).ends hpq.2,fun b hb => ?_⟩
  cases x with
  | error e => cases hb
  | ok a =>
    have hp := h.only a rfl
    obtain ⟨_,⟨⟩,hq⟩ := h.ends hp
    exact ⟨hp,(hf hp a hq).only b hb⟩

theorem Exact.iff (h : Exact x p Q) : Ends x (fun _ => True) ↔ p :=
  ⟨fun ⟨a,ha,_⟩ => h.only a ha,fun hp => (h.ends hp).imp fun _ _ => trivial⟩

end

/-- Beside a fault, a parser can reject its input. -/
abbrev Parse := OptionT Checked

/-- No fault happens, and a result meets `Q`. -/
def Parses (x : Parse α) (Q : α → Prop) : Prop := Ends x.run fun r => ∀ a, r = some a → Q a

variable {α β : Type}

theorem Parses.pure (h : Q a) : Parses (Pure.pure a) Q :=
  ⟨some a,rfl,fun _ ha => Option.some.inj ha ▸ h⟩

theorem Parses.bind (h : Parses x Q) (hg : ∀ a, Q a → Parses (g a) P) :
    Parses (x >>= g) P := by
  obtain ⟨r,hr,hq⟩ := h
  cases r with
  | none => exact ⟨none,by simp [hr]; rfl,nofun⟩
  | some a =>
    obtain ⟨t,ht,hp⟩ := hg a (hq a rfl)
    exact ⟨t,by simp [hr]; exact ht,hp⟩

theorem Parses.lift (h : Ends x fun a => Parses (g a) P) : Parses (liftM x >>= g) P := by
  obtain ⟨a,rfl,ha⟩ := h
  exact ha

theorem Parses.check {p : Prop} [Decidable p] (h : p → Parses x P) :
    Parses (do guard p; x) P := by
  by_cases hp : p
  · rw [guard,if_pos hp]
    exact h hp
  · rw [guard,if_neg hp]
    exact ⟨none,rfl,nofun⟩

/-- A parser that has a result had one at each step. -/
theorem parse_bind_iff {x : Parse α} {g : α → Parse β} : (x >>= g).run = .ok (some b) ↔
    ∃ a, x.run = .ok (some a) ∧ (g a).run = .ok (some b) := by
  rw [OptionT.run_bind]
  rcases x.run with e | _ | a <;> simp [Option.elimM,Pure.pure,Except.pure]

theorem parse_lift_iff {x : Checked α} {g : α → Parse β} : (liftM x >>= g).run = .ok (some b) ↔
    ∃ a, x = .ok a ∧ (g a).run = .ok (some b) := by
  rcases x with e | a
  · exact ⟨nofun,nofun⟩
  · exact ⟨fun h => ⟨a,rfl,h⟩,fun ⟨_,h,hg⟩ => Except.ok.inj h ▸ hg⟩

theorem parse_check_iff {p : Prop} [Decidable p] {x : Parse α} :
    (do guard p; x).run = .ok (some b) ↔ p ∧ x.run = .ok (some b) := by
  by_cases hp : p
  · simp [guard,hp]
  · simp [guard,hp]
    rintro ⟨⟩

theorem parse_pure_iff {a b : α} : (Pure.pure a : Parse α).run = .ok (some b) ↔ a = b := by
  simp [Pure.pure,OptionT.pure,OptionT.run,OptionT.mk,Except.pure]

theorem Parses.next (h : Parses (x >>= g) P) (hx : x.run = .ok (some a)) : Parses (g a) P := by
  obtain ⟨r,hr,hp⟩ := h
  rw [OptionT.run_bind,hx] at hr
  exact ⟨r,hr,hp⟩

theorem Parses.lift_next (h : Parses (liftM x >>= g) P) : Ends x fun a => Parses (g a) P := by
  cases x with
  | error => obtain ⟨_,⟨⟩,_⟩ := h
  | ok a => exact ⟨a,rfl,h⟩

theorem Parses.check_next {p : Prop} [Decidable p] (h : Parses (do guard p; x) P) (hp : p) :
    Parses x P := by
  rw [guard,if_pos hp] at h
  exact h

end Miku.Lib
