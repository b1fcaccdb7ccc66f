import Mathlib.Data.List.Sort

namespace Miku.Lib
open List

/-- A finite map from numbers kept in ascending key order. -/
structure OrdMap (α : Type) where
  entries : List (Nat × α)
  sorted : entries.Pairwise (fun a b => a.1 < b.1)

namespace OrdMap

def insertList (k : Nat) (v : α) : List (Nat × α) → List (Nat × α)
  | [] => [(k,v)]
  | e :: es =>
    if k < e.1 then (k,v) :: e :: es
    else if k = e.1 then (k,v) :: es
    else e :: insertList k v es

variable {k : Nat} {v : α} {l : List (Nat × α)} {e : Nat × α}

theorem key_of_mem_insertList (h : e ∈ insertList k v l) : e = (k,v) ∨ e ∈ l := by
  induction l with
  | nil => simpa [insertList] using h
  | cons d ds ih =>
    rw [insertList] at h
    split at h
    · simpa using h
    · split at h
      · rcases mem_cons.mp h with he | hm
        · exact .inl he
        · exact .inr (mem_cons_of_mem _ hm)
      · rcases mem_cons.mp h with he | hm
        · exact .inr (he ▸ mem_cons_self)
        · rcases ih hm with he | hm
          · exact .inl he
          · exact .inr (mem_cons_of_mem _ hm)

theorem insertList_sorted (k : Nat) (v : α) (h : l.Pairwise (fun a b => a.1 < b.1)) :
    (insertList k v l).Pairwise (fun a b => a.1 < b.1) := by
  induction l with
  | nil => simp [insertList]
  | cons d ds ih =>
    obtain ⟨hd,hs⟩ := pairwise_cons.mp h
    rw [insertList]
    split
    · rename_i hk
      refine pairwise_cons.mpr ⟨?_,h⟩
      intro e he
      rcases mem_cons.mp he with rfl | hm
      · exact hk
      · exact lt_trans hk (hd e hm)
    · split
      · rename_i hk
        refine pairwise_cons.mpr ⟨?_,hs⟩
        intro e he
        exact hk ▸ hd e he
      · refine pairwise_cons.mpr ⟨?_,ih hs⟩
        intro e he
        rcases key_of_mem_insertList he with rfl | hm
        · simp only
          omega
        · exact hd e hm

def empty : OrdMap α := ⟨[],.nil⟩

def insert (m : OrdMap α) (k : Nat) (v : α) : OrdMap α :=
  ⟨insertList k v m.entries,insertList_sorted k v m.sorted⟩

def erase (m : OrdMap α) (k : Nat) : OrdMap α :=
  ⟨m.entries.filter (fun e => e.1 != k),m.sorted.filter _⟩

def get? (m : OrdMap α) (k : Nat) : Option α := (m.entries.find? (fun e => e.1 == k)).map Prod.snd

/-- The entries with keys below `k`, in order. -/
def below (m : OrdMap α) (k : Nat) : List (Nat × α) := m.entries.filter (fun e => e.1 < k)

/-- The entries with keys up to `k`, in order. -/
def upTo (m : OrdMap α) (k : Nat) : List (Nat × α) := m.entries.filter (fun e => e.1 ≤ k)

/-- The entries with keys from `k` on, in order. -/
def fromKey (m : OrdMap α) (k : Nat) : List (Nat × α) := m.entries.filter (fun e => k ≤ e.1)

instance : Membership (Nat × α) (OrdMap α) := ⟨fun m e => e ∈ m.entries⟩

instance [DecidableEq α] (m : OrdMap α) (e : Nat × α) : Decidable (e ∈ m) :=
  inferInstanceAs (Decidable (e ∈ m.entries))

variable {m : OrdMap α}

theorem mem_def : e ∈ m ↔ e ∈ m.entries := Iff.rfl

theorem not_mem_empty (e : Nat × α) : e ∉ (empty : OrdMap α) := by
  simp [mem_def,empty]

theorem value_unique (m : OrdMap α) (hv : (k,v) ∈ m) (hw : (k,w) ∈ m) : v = w := by
  have h : ∀ l : List (Nat × α), l.Pairwise (fun a b => a.1 < b.1) →
      (k,v) ∈ l → (k,w) ∈ l → v = w := by
    intro l hl
    induction l with
    | nil => simp
    | cons d ds ih =>
      obtain ⟨hd,hs⟩ := pairwise_cons.mp hl
      intro h1 h2
      rcases mem_cons.mp h1 with h1 | h1 <;> rcases mem_cons.mp h2 with h2 | h2
      · exact congrArg Prod.snd (h1.trans h2.symm)
      · have := hd _ h2
        rw [← h1] at this
        exact absurd this (lt_irrefl _)
      · have := hd _ h1
        rw [← h2] at this
        exact absurd this (lt_irrefl _)
      · exact ih hs h1 h2
  exact h m.entries m.sorted hv hw

theorem get?_eq_some : m.get? k = some v ↔ (k,v) ∈ m := by
  unfold get?
  constructor
  · intro h
    obtain ⟨⟨j,w⟩,hf,hw⟩ := Option.map_eq_some_iff.mp h
    have hj : j = k := by simpa using find?_some hf
    subst hj
    have hm := mem_of_find?_eq_some hf
    simp only at hw
    exact hw ▸ hm
  · intro h
    cases hf : m.entries.find? (fun e => e.1 == k) with
    | none =>
      have := find?_eq_none.mp hf (k,v) h
      simp at this
    | some e =>
      obtain ⟨j,w⟩ := e
      have hj : j = k := by simpa using find?_some hf
      subst hj
      have hm : (j,w) ∈ m := mem_of_find?_eq_some hf
      simp [value_unique m hm h]

theorem mem_insert : (j,w) ∈ m.insert k v ↔ (j = k ∧ w = v) ∨ (j ≠ k ∧ (j,w) ∈ m) := by
  have h : ∀ l : List (Nat × α), l.Pairwise (fun a b => a.1 < b.1) →
      ((j,w) ∈ insertList k v l ↔ (j = k ∧ w = v) ∨ (j ≠ k ∧ (j,w) ∈ l)) := by
    intro l hl
    induction l with
    | nil => simp [insertList]
    | cons d ds ih =>
      obtain ⟨hd,hs⟩ := pairwise_cons.mp hl
      have hlt : ∀ x, (j,x) ∈ ds → d.1 < j := fun x hx => hd _ hx
      rw [insertList]
      split
      · rename_i hk
        have hne : (j,w) ∈ d :: ds → j ≠ k := by
          intro hm
          rcases mem_cons.mp hm with he | hm
          · have : j = d.1 := congrArg Prod.fst he
            omega
          · have := hlt _ hm
            omega
        rw [mem_cons,Prod.mk.injEq]
        constructor
        · rintro (he | hm)
          · exact .inl he
          · exact .inr ⟨hne hm,hm⟩
        · rintro (he | ⟨_,hm⟩)
          · exact .inl he
          · exact .inr hm
      · split
        · rename_i hk
          rw [mem_cons,Prod.mk.injEq]
          constructor
          · rintro (he | hm)
            · exact .inl he
            · have := hlt _ hm
              exact .inr ⟨by omega,mem_cons_of_mem _ hm⟩
          · rintro (he | ⟨hj,hm⟩)
            · exact .inl he
            · rcases mem_cons.mp hm with he | hm
              · exact absurd ((congrArg Prod.fst he).trans hk.symm) hj
              · exact .inr hm
        · rename_i hnl hne
          rw [mem_cons,ih hs,mem_cons]
          constructor
          · rintro (he | he | ⟨hj,hm⟩)
            · have : j = d.1 := congrArg Prod.fst he
              exact .inr ⟨by omega,.inl he⟩
            · exact .inl he
            · exact .inr ⟨hj,.inr hm⟩
          · rintro (he | ⟨hj,he | hm⟩)
            · exact .inr (.inl he)
            · exact .inl he
            · exact .inr (.inr ⟨hj,hm⟩)
  exact h m.entries m.sorted

theorem mem_erase : e ∈ m.erase k ↔ e.1 ≠ k ∧ e ∈ m := by
  simp [mem_def,erase,and_comm]

theorem mem_below : e ∈ m.below k ↔ e.1 < k ∧ e ∈ m := by
  simp [mem_def,below,and_comm]

theorem getLast?_greatest (hl : l.Pairwise (fun a b => a.1 < b.1))
    (h : l.getLast? = some e) : e ∈ l ∧ ∀ d ∈ l, d.1 ≤ e.1 := by
  obtain ⟨ys,rfl⟩ := getLast?_eq_some_iff.mp h
  refine ⟨by simp,?_⟩
  intro d hd
  rcases mem_append.mp hd with hm | hm
  · exact le_of_lt ((pairwise_append.mp hl).2.2 d hm e (by simp))
  · simp only [mem_singleton] at hm
    exact hm ▸ le_refl _

end OrdMap

open OrdMap

variable {α : Type} {lo hi : α → Nat} {m : OrdMap α} {s e : Nat}

/-- A map of nonempty spans `[lo v, hi v)`, each stored under its own start, no
two of which share a point. -/
structure Spans (lo hi : α → Nat) (m : OrdMap α) : Prop where
  keyed : ∀ k v, (k,v) ∈ m → lo v = k
  proper : ∀ k v, (k,v) ∈ m → lo v < hi v
  disjoint : ∀ k v j w, (k,v) ∈ m → (j,w) ∈ m → k ≠ j → hi v ≤ lo w ∨ hi w ≤ lo v

/-- No span stored under a key other than `k` meets `[s, e)`. -/
def ClearBut (lo hi : α → Nat) (m : OrdMap α) (k s e : Nat) : Prop :=
  ∀ j v, (j,v) ∈ m → j ≠ k → hi v ≤ s ∨ e ≤ lo v

/-- No span meets `[s, e)`. -/
def Clear (lo hi : α → Nat) (m : OrdMap α) (s e : Nat) : Prop :=
  ∀ k v, (k,v) ∈ m → hi v ≤ s ∨ e ≤ lo v

instance (lo hi : α → Nat) (m : OrdMap α) (k s e : Nat) : Decidable (ClearBut lo hi m k s e) :=
  decidable_of_iff (∀ d ∈ m.entries, d.1 ≠ k → hi d.2 ≤ s ∨ e ≤ lo d.2)
    ⟨fun h j v hm => h (j,v) hm,fun h d hd => h d.1 d.2 hd⟩

instance (lo hi : α → Nat) (m : OrdMap α) (s e : Nat) : Decidable (Clear lo hi m s e) :=
  decidable_of_iff (∀ d ∈ m.entries, hi d.2 ≤ s ∨ e ≤ lo d.2)
    ⟨fun h j v hm => h (j,v) hm,fun h d hd => h d.1 d.2 hd⟩

theorem Clear.but (h : Clear lo hi m s e) (k : Nat) : ClearBut lo hi m k s e :=
  fun j v hm _ => h j v hm

namespace Spans

theorem empty : Spans lo hi .empty := ⟨fun _ _ hm => absurd hm (not_mem_empty _),
    fun _ _ hm => absurd hm (not_mem_empty _),
    fun _ _ _ _ hm => absurd hm (not_mem_empty _)⟩

section

variable (h : Spans lo hi m)
include h

theorem erase (k : Nat) : Spans lo hi (m.erase k) := ⟨fun j v hm => h.keyed j v (mem_erase.mp hm).2,
    fun j v hm => h.proper j v (mem_erase.mp hm).2,
    fun j v i w hv hw => h.disjoint j v i w (mem_erase.mp hv).2 (mem_erase.mp hw).2⟩

/-- A span that meets no other may be stored; one with the same start is
replaced. -/
theorem insert (hp : lo v < hi v)
    (hc : ClearBut lo hi m (lo v) (lo v) (hi v)) : Spans lo hi (m.insert (lo v) v) := by
  refine ⟨?_,?_,?_⟩
  · intro k w hm
    rcases mem_insert.mp hm with ⟨rfl,rfl⟩ | ⟨-,hm⟩
    · rfl
    · exact h.keyed k w hm
  · intro k w hm
    rcases mem_insert.mp hm with ⟨-,rfl⟩ | ⟨-,hm⟩
    · exact hp
    · exact h.proper k w hm
  · intro k w j x hw hx hne
    rcases mem_insert.mp hw with ⟨rfl,rfl⟩ | ⟨hk,hwm⟩ <;>
      rcases mem_insert.mp hx with ⟨rfl,rfl⟩ | ⟨hj,hxm⟩
    · exact absurd rfl hne
    · exact (hc j x hxm hj).symm
    · exact hc k w hwm hk
    · exact h.disjoint k w j x hwm hxm hne

theorem ordered (hv : (k,v) ∈ m) (hw : (j,w) ∈ m) (hlt : k < j) : hi v ≤ lo w := by
  have hkv := h.keyed k v hv
  have hkw := h.keyed j w hw
  have hpw := h.proper j w hw
  rcases h.disjoint k v j w hv hw (Nat.ne_of_lt hlt) with hd | hd
  · exact hd
  · omega

theorem point_unique (hv : (k,v) ∈ m)
    (hw : (j,w) ∈ m) (hav : lo v ≤ a ∧ a < hi v) (haw : lo w ≤ a ∧ a < hi w) : v = w := by
  have hkj : k = j := by
    rcases Nat.lt_trichotomy k j with hlt | heq | hlt
    · have := h.ordered hv hw hlt
      omega
    · exact heq
    · have := h.ordered hw hv hlt
      omega
  subst hkj
  exact m.value_unique hv hw

end

end Spans

end Miku.Lib
