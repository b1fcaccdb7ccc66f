import Mathlib.Data.Set.Card

namespace Miku.Lib
open Function List

inductive Slot (α : Type) where
  | empty
  | occupied (a : α)
  | tombstone
  deriving DecidableEq

/-- A hash table with open addressing: a search starts at the slot of the hash and goes on
to the first empty slot. -/
structure Probe (α : Type) where
  cap : Nat
  slots : Nat → Slot α

namespace Probe

variable {α : Type}

def empty (cap : Nat) : Probe α := ⟨cap,fun _ => .empty⟩

def set (t : Probe α) (i : Nat) (x : Slot α) : Probe α :=
  { t with slots := update t.slots i x }

/-- The slots a search for hash `h` goes through. -/
def path (t : Probe α) (h : Nat) : List Nat :=
  (List.range t.cap).map fun i => (h % t.cap + i) % t.cap

/-- The first slot before an empty one whose item meets `p`. -/
def scan (slots : Nat → Slot α) (p : α → Bool) : List Nat → Option Nat
  | [] => none
  | i :: is =>
    match slots i with
    | .empty => none
    | .tombstone => scan slots p is
    | .occupied a => if p a then some i else scan slots p is

/-- The slot for a new item: the first tombstone before the first empty slot, or that
one. -/
def vacancy (slots : Nat → Slot α) : Option Nat → List Nat → Option Nat
  | tomb, [] => tomb
  | tomb, i :: is =>
    match slots i with
    | .empty => some (tomb.getD i)
    | .tombstone => vacancy slots (tomb.or (some i)) is
    | .occupied _ => vacancy slots tomb is

def firstEmpty [DecidableEq α] (t : Probe α) (h : Nat) : Option Nat :=
  (t.path h).find? fun i => t.slots i == .empty

variable {κ : Type} {slots : Nat → Slot α} {p : α → Bool} {i : Nat} {a : α}

theorem occupied_of_scan (h : scan slots p is = some i) : ∃ a, slots i = .occupied a ∧ p a := by
  induction is with
  | nil => cases h
  | cons j js ih =>
    rw [scan] at h
    split at h
    · cases h
    · exact ih h
    · rename_i a hj
      split at h
      · cases h
        exact ⟨a,hj,‹_›⟩
      · exact ih h

/-- An item is found unless an empty slot comes before it. -/
theorem scan_isSome (hpre : ∀ j ∈ pre, slots j ≠ .empty)
    (hi : slots i = .occupied a) (ha : p a) : (scan slots p (pre ++ i :: post)).isSome := by
  induction pre with
  | nil => simp [scan,hi,ha]
  | cons j js ih =>
    have ih := ih fun k hk => hpre k (mem_cons_of_mem j hk)
    have hj := hpre j mem_cons_self
    rw [cons_append,scan]
    split
    · contradiction
    · exact ih
    · split
      · rfl
      · exact ih

theorem vacancy_some (j : Nat) (is : List Nat) : vacancy slots (some j) is = some j := by
  induction is with
  | nil => rfl
  | cons k ks ih =>
    rw [vacancy]
    split
    · rfl
    · exact ih
    · exact ih

theorem vacancy_spec (h : vacancy slots none is = some i) :
    ∃ pre post, is = pre ++ i :: post ∧ (∀ j ∈ pre, slots j ≠ .empty) ∧
      ∀ a, slots i ≠ .occupied a := by
  induction is with
  | nil => cases h
  | cons j js ih =>
    rw [vacancy] at h
    split at h <;> rename_i hj
    · cases h
      exact ⟨[],js,rfl,by simp,by simp [hj]⟩
    · rw [Option.none_or,vacancy_some] at h
      cases h
      exact ⟨[],js,rfl,by simp,by simp [hj]⟩
    · obtain ⟨pre,post,rfl,hpre,hi⟩ := ih h
      refine ⟨j :: pre,post,rfl,?_,hi⟩
      intro k hk
      rcases mem_cons.mp hk with rfl | hk
      · simp [hj]
      · exact hpre k hk

theorem occupied_of_vacancy (h : vacancy slots none is = none) :
    ∀ j ∈ is, ∃ a, slots j = .occupied a := by
  induction is with
  | nil => simp
  | cons k ks ih =>
    rw [vacancy] at h
    split at h <;> rename_i hk
    · cases h
    · rw [Option.none_or,vacancy_some] at h
      cases h
    · intro j hj
      rcases mem_cons.mp hj with rfl | hj
      · exact ⟨_,hk⟩
      · exact ih h j hj

variable {t : Probe α}

theorem mem_path (hi : i < t.cap) : i ∈ t.path h := by
  have hc : 0 < t.cap := by omega
  have hh : h % t.cap < t.cap := Nat.mod_lt h hc
  refine List.mem_map.mpr ⟨(i + (t.cap - h % t.cap)) % t.cap,mem_range.mpr (Nat.mod_lt _ hc),?_⟩
  rw [Nat.add_mod_mod,show h % t.cap + (i + (t.cap - h % t.cap)) = i + t.cap by omega,
    Nat.add_mod_right,Nat.mod_eq_of_lt hi]

theorem lt_of_mem_path (hi : i ∈ t.path h) : i < t.cap := by
  obtain ⟨k,hk,rfl⟩ := List.mem_map.mp hi
  exact Nat.mod_lt _ (Nat.zero_lt_of_lt (mem_range.mp hk))

def items (t : Probe α) : Set α := {a | ∃ i, t.slots i = .occupied a}

/-- Every item lies on the path of its key, before the empty slots, and no two items have
the same key. -/
structure Sound (key : α → κ) (hash : κ → Nat) (t : Probe α) : Prop where
  reach : ∀ i a, t.slots i = .occupied a →
    ∃ pre post, t.path (hash (key a)) = pre ++ i :: post ∧ ∀ j ∈ pre, t.slots j ≠ .empty
  distinct : ∀ i j a b, t.slots i = .occupied a → t.slots j = .occupied b → key a = key b → i = j

variable {key : α → κ} {hash : κ → Nat}

theorem sound_empty (n : Nat) : (Probe.empty n : Probe α).Sound key hash :=
  ⟨fun _ _ h => (nomatch h),fun _ _ _ _ h => (nomatch h)⟩

theorem items_empty (n : Nat) : (Probe.empty n : Probe α).items = ∅ := by
  ext a
  simp [items,Probe.empty]

namespace Sound

section

variable (hs : t.Sound key hash)
include hs

theorem lt_cap (hi : t.slots i = .occupied a) : i < t.cap := by
  obtain ⟨pre,post,he,_⟩ := hs.reach i a hi
  exact lt_of_mem_path (h := hash (key a)) (by simp [he])

theorem eq_of_key (ha : a ∈ t.items) (hb : b ∈ t.items) (hk : key a = key b) : a = b := by
  obtain ⟨i,hi⟩ := ha
  obtain ⟨j,hj⟩ := hb
  cases hs.distinct i j a b hi hj hk
  exact Slot.occupied.inj (hi.symm.trans hj)

theorem scan_isSome (ha : a ∈ t.items) (hp : p a) :
    (scan t.slots p (t.path (hash (key a)))).isSome := by
  obtain ⟨i,hi⟩ := ha
  obtain ⟨pre,post,he,hpre⟩ := hs.reach i a hi
  rw [he]
  exact Probe.scan_isSome hpre hi hp

/-- An item put into a slot on its path that comes before the empty ones. -/
theorem place (he : t.path (hash (key a)) = pre ++ i :: post) (hpre : ∀ j ∈ pre, t.slots j ≠ .empty)
    (hfree : ∀ b, t.slots i ≠ .occupied b) (hnew : ∀ b ∈ t.items, key b ≠ key a) :
    (t.set i (.occupied a)).Sound key hash ∧ (t.set i (.occupied a)).items = insert a t.items := by
  have hold : ∀ j, j ≠ i → (t.set i (.occupied a)).slots j = t.slots j := fun j hj =>
    update_of_ne hj _ _
  have hself : (t.set i (.occupied a)).slots i = .occupied a := update_self i _ _
  have hfull : ∀ j, t.slots j ≠ .empty → (t.set i (.occupied a)).slots j ≠ .empty := by
    intro j hj
    by_cases hji : j = i
    · rw [hji,hself]
      exact nofun
    · rwa [hold j hji]
  refine ⟨⟨?_,?_⟩,?_⟩
  · intro j b hj
    by_cases hji : j = i
    · subst hji
      cases Slot.occupied.inj (hself.symm.trans hj)
      exact ⟨pre,post,he,fun k hk => hfull k (hpre k hk)⟩
    · rw [hold j hji] at hj
      obtain ⟨pre,post,he,hpre⟩ := hs.reach j b hj
      exact ⟨pre,post,he,fun k hk => hfull k (hpre k hk)⟩
  · intro j k b c hj hk hkey
    by_cases hji : j = i <;> by_cases hki : k = i
    · rw [hji,hki]
    · rw [hji,hself] at hj
      cases hj
      rw [hold k hki] at hk
      exact absurd hkey.symm (hnew c ⟨k,hk⟩)
    · rw [hki,hself] at hk
      cases hk
      rw [hold j hji] at hj
      exact absurd hkey (hnew b ⟨j,hj⟩)
    · rw [hold j hji] at hj
      rw [hold k hki] at hk
      exact hs.distinct j k b c hj hk hkey
  · ext b
    constructor
    · rintro ⟨j,hj⟩
      by_cases hji : j = i
      · rw [hji,hself] at hj
        exact .inl (Slot.occupied.inj hj).symm
      · rw [hold j hji] at hj
        exact .inr ⟨j,hj⟩
    · rintro (rfl | ⟨j,hj⟩)
      · exact ⟨i,hself⟩
      · have hji : j ≠ i := by
          rintro rfl
          exact hfree b hj
        exact ⟨j,(hold j hji).trans hj⟩

theorem bury (hi : t.slots i = .occupied a) :
    (t.set i .tombstone).Sound key hash ∧ (t.set i .tombstone).items = t.items \ {a} := by
  have hold : ∀ j, j ≠ i → (t.set i .tombstone).slots j = t.slots j := fun j hj =>
    update_of_ne hj _ _
  have hself : (t.set i .tombstone).slots i = .tombstone := update_self i _ _
  have hocc : ∀ j b, (t.set i .tombstone).slots j = .occupied b → t.slots j = .occupied b ∧ j ≠ i := by
    intro j b hj
    by_cases hji : j = i
    · rw [hji,hself] at hj
      cases hj
    · exact ⟨(hold j hji).symm.trans hj,hji⟩
  refine ⟨⟨?_,?_⟩,?_⟩
  · intro j b hj
    obtain ⟨pre,post,he,hpre⟩ := hs.reach j b (hocc j b hj).1
    refine ⟨pre,post,he,fun k hk => ?_⟩
    by_cases hki : k = i
    · rw [hki,hself]
      exact nofun
    · rw [hold k hki]
      exact hpre k hk
  · intro j k b c hj hk
    exact hs.distinct j k b c (hocc j b hj).1 (hocc k c hk).1
  · ext b
    constructor
    · rintro ⟨j,hj⟩
      obtain ⟨hj,hji⟩ := hocc j b hj
      refine ⟨⟨j,hj⟩,?_⟩
      rintro rfl
      exact hji (hs.distinct j i b b hj hi rfl)
    · rintro ⟨⟨j,hj⟩,hb⟩
      have hji : j ≠ i := by
        rintro rfl
        exact hb (Slot.occupied.inj (hj.symm.trans hi))
      exact ⟨j,(hold j hji).trans hj⟩

theorem encard_le : t.items.encard ≤ t.cap := by
  have hsub : t.items.image Slot.occupied ⊆ Set.image t.slots (Finset.range t.cap) := by
    rintro _ ⟨a,⟨i,hi⟩,rfl⟩
    exact ⟨i,Finset.mem_coe.mpr (Finset.mem_range.mpr (hs.lt_cap hi)),hi⟩
  have hinj : Function.Injective (Slot.occupied : α → Slot α) := fun _ _ => Slot.occupied.inj
  calc t.items.encard = (t.items.image Slot.occupied).encard := (hinj.encard_image _).symm
    _ ≤ (Set.image t.slots (Finset.range t.cap)).encard := Set.encard_le_encard hsub
    _ ≤ (Finset.range t.cap : Set Nat).encard := Set.encard_image_le _ _
    _ = t.cap := by rw [Set.encard_coe_eq_coe_finsetCard,Finset.card_range]

theorem le_encard (hfull : ∀ i, i < t.cap → ∃ a, t.slots i = .occupied a) :
    (t.cap : ℕ∞) ≤ t.items.encard := by
  have hsub : Set.image t.slots (Finset.range t.cap) ⊆ t.items.image Slot.occupied := by
    rintro _ ⟨i,hi,rfl⟩
    obtain ⟨a,ha⟩ := hfull i (Finset.mem_range.mp (Finset.mem_coe.mp hi))
    exact ⟨a,⟨i,ha⟩,ha.symm⟩
  have hinj : Set.InjOn t.slots (Finset.range t.cap) := by
    intro i hi j hj hij
    obtain ⟨a,ha⟩ := hfull i (Finset.mem_range.mp (Finset.mem_coe.mp hi))
    exact hs.distinct i j a a ha (hij.symm.trans ha) rfl
  have hocc : Function.Injective (Slot.occupied : α → Slot α) := fun _ _ => Slot.occupied.inj
  calc (t.cap : ℕ∞) = (Finset.range t.cap : Set Nat).encard := by
        rw [Set.encard_coe_eq_coe_finsetCard,Finset.card_range]
    _ = (Set.image t.slots (Finset.range t.cap)).encard := hinj.encard_image.symm
    _ ≤ (t.items.image Slot.occupied).encard := Set.encard_le_encard hsub
    _ = t.items.encard := hocc.encard_image _

end

end Sound

end Probe

end Miku.Lib
