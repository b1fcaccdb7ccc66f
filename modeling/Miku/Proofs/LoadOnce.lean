import Mathlib.Data.List.Perm.Subperm
import Miku.Ld.Loader

namespace Miku.Ld
open List

/-- If the library asked for can be found, it is one of `names`. -/
def Known (found : Libs) (names : List Name) (soname : Name) : Prop :=
  trimmed soname ≠ [] → found (trimmed soname) ≠ none → trimmed soname ∈ names

/-- All that a library of `names` needs and that can be found is in `names`, and the table has
room for them. -/
structure Closed (found : Libs) (names : List Name) : Prop where
  few : names.length ≤ maxLibs
  short : ∀ n ∈ names, n.length ≤ 63
  needs : ∀ n ∈ names, ∀ needed, found n = some needed → ∀ m ∈ parseNeeded needed, Known found names m

/-- The table has some of `names`, each once. Nothing was done with another library, and nothing
twice. -/
structure Inv (names : List Name) (s : Loader) : Prop where
  known : s.libs ⊆ names
  nodup : s.libs.Nodup
  listed : ∀ p n, (p,n) ∈ s.done → n ∈ s.libs
  once : s.done.Nodup

/-- Nothing more is done with a library that was in the table. -/
structure Further (s t : Loader) : Prop where
  libs : s.libs <+: t.libs
  done : ∀ p n, (p,n) ∈ t.done → (p,n) ∈ s.done ∨ n ∉ s.libs

theorem Further.refl (s : Loader) : Further s s := ⟨prefix_rfl,fun _ _ h => .inl h⟩

theorem Further.trans (h : Further s t) (h' : Further t u) : Further s u := by
  refine ⟨h.libs.trans h'.libs,fun p n hn => ?_⟩
  rcases h'.done p n hn with hn | hn
  · exact h.done p n hn
  · exact .inr fun hs => hn (h.libs.subset hs)

theorem mem_did {s : Loader} : (q,n) ∈ (s.did p name).done ↔ (q,n) ∈ s.done ∨ q = p ∧ n = name := by
  simp [Loader.did]

theorem Further.did (h : Further s t) (hnew : name ∉ s.libs) (p : Phase) : Further s (t.did p name) := by
  refine ⟨h.libs,fun q n hq => ?_⟩
  rcases mem_did.mp hq with hq | ⟨-,rfl⟩
  · exact h.done q n hq
  · exact .inr hnew

theorem Inv.did (h : Inv names s) (hn : name ∈ s.libs) (hnew : (p,name) ∉ s.done) :
    Inv names (s.did p name) := by
  refine ⟨h.known,h.nodup,fun q n hq => ?_,nodup_append.mpr ⟨h.once,by simp,by grind⟩⟩
  rcases mem_did.mp hq with hq | ⟨-,rfl⟩
  · exact h.listed q n hq
  · exact hn

theorem Inv.length_le (h : Inv names s) : s.libs.length ≤ names.length :=
  (List.Nodup.subperm h.nodup h.known).length_le

theorem Inv.register (h : Inv names s) (hc : Closed found names) (hn : name ∈ names)
    (hnew : name ∉ s.libs) :
    registerLib (s.did .map name) name = Loader.did ⟨s.libs ++ [name],s.done⟩ .map name ∧
      Inv names ⟨s.libs ++ [name],s.done⟩ := by
  have hi : Inv names ⟨s.libs ++ [name],s.done⟩ :=
    ⟨append_subset.mpr ⟨h.known,by simpa using hn⟩,nodup_append.mpr ⟨h.nodup,by simp,by grind⟩,
      fun p n hp => mem_append_left _ (h.listed p n hp),h.once⟩
  have hlen := Nat.le_trans hi.length_le hc.few
  simp only [length_append,length_singleton] at hlen
  refine ⟨?_,hi⟩
  rw [registerLib,if_neg (by simp only [Loader.did]; omega),take_of_length_le (hc.short name hn)]
  rfl

/-- The libraries of a list are loaded, if each one is. -/
theorem foldlM_spec {load : Loader → Name → Option Loader}
    (hload : ∀ m s, Known found names m → Inv names s → names.length < s.libs.length + fuel →
      ∃ t, load s m = some t ∧ Inv names t ∧ Further s t)
    (l : List Name) (hl : ∀ m ∈ l, Known found names m) (hs : Inv names s)
    (hfuel : names.length < s.libs.length + fuel) :
    ∃ t, l.foldlM load s = some t ∧ Inv names t ∧ Further s t := by
  induction l generalizing s with
  | nil => exact ⟨s,rfl,hs,.refl s⟩
  | cons m l ih =>
    obtain ⟨t,ht,hti,hst⟩ := hload m s (hl m mem_cons_self) hs hfuel
    have hlen := hst.libs.length_le
    obtain ⟨u,hu,hui,htu⟩ := ih (fun k hk => hl k (mem_cons_of_mem _ hk)) hti (by omega)
    exact ⟨u,by rw [foldlM_cons,ht]; exact hu,hui,hst.trans htu⟩

/-- Each level of the recursion fills a place of the table. -/
theorem load_spec (hc : Closed found names) (hn : Known found names soname) (h : Inv names s)
    (hfuel : names.length < s.libs.length + fuel) :
    ∃ t, loadLibrary found fuel soname s = some t ∧ Inv names t ∧ Further s t := by
  induction fuel generalizing soname s with
  | zero =>
    have := h.length_le
    omega
  | succ fuel ih =>
    unfold loadLibrary
    dsimp only
    by_cases hdone : trimmed soname = [] ∨ isLoaded s (trimmed soname) = true
    · exact ⟨s,if_pos hdone,h,.refl s⟩
    rw [if_neg hdone]
    cases hf : found (trimmed soname) with
    | none => exact ⟨s,rfl,h,.refl s⟩
    | some needed =>
      have hin : trimmed soname ∈ names := hn (fun h0 => hdone (.inl h0)) (by simp [hf])
      have hnew : trimmed soname ∉ s.libs := fun hm => hdone (.inr (by simpa [isLoaded] using hm))
      obtain ⟨hreg,hi⟩ := h.register hc hin hnew
      have hmap := hi.did (p := .map) (mem_append_right _ mem_cons_self)
        fun hm => hnew (h.listed _ _ hm)
      obtain ⟨t,ht,hti,hst⟩ := foldlM_spec (fun m s hm hs hf => ih hm hs hf) _
        (hc.needs _ hin needed hf) hmap (by
          simp only [Loader.did,length_append,length_singleton]
          omega)
      have hmem : trimmed soname ∈ t.libs := hst.libs.subset (by simp [Loader.did])
      -- what the nested calls did was about other libraries
      have hfresh : ∀ p, p ≠ .map → (p,trimmed soname) ∉ t.done := by
        intro p hp hm
        rcases hst.done p _ hm with hm | hm
        · rcases mem_did.mp hm with hm | ⟨hm,-⟩
          · exact hnew (h.listed _ _ hm)
          · exact hp hm
        · exact hm (by simp [Loader.did])
      have hrel := hti.did hmem (hfresh .relocate (by decide))
      have hexp : (.exportSymbols,trimmed soname) ∉ (t.did .relocate (trimmed soname)).done := by
        simpa [mem_did] using hfresh .exportSymbols (by decide)
      have hstart : Further s ⟨s.libs ++ [trimmed soname],s.done⟩ :=
        ⟨prefix_append _ _,fun _ _ hp => .inl hp⟩
      rw [hreg]
      exact ⟨_,by simp [ht],hrel.did hmem hexp,
        ((((hstart.did hnew _).trans hst).did hnew _).did hnew _)⟩

/-- All that a program needs is loaded, and nothing is done twice, also with what the table
already has, if it is large enough for all libraries that are found and no name of one is cut. -/
theorem load_once (hc : Closed found names) (h : Inv names s) (needed : List Name)
    (hn : ∀ n ∈ needed, Known found names n) (hfuel : names.length < s.libs.length + fuel) :
    ∃ t, loadNeeded found fuel needed s = some t ∧ t.done.Nodup := by
  obtain ⟨t,ht,hi,-⟩ := foldlM_spec (fun m s hm hs hf => load_spec hc hm hs hf) needed hn h hfuel
  exact ⟨t,ht,hi.once⟩

/-- Two libraries that need each other; one of them also needs one that is not found. -/
def pair : Libs := fun n => if n = [1] then some [[2],[3]] else if n = [2] then some [[1]] else none

theorem load_once_cycle : ∃ t, loadNeeded pair 3 [[1],[2],[4]] ⟨[],[]⟩ = some t ∧ t.done.Nodup := by
  have hknown : ∀ m ∈ [[1],[2],[3],[4]], Known pair [[1],[2]] m := by
    unfold Known
    decide
  have hc : Closed pair [[1],[2]] := by
    refine ⟨by decide,by decide,fun n hn needed hf m hm => hknown m ?_⟩
    simp only [mem_cons,not_mem_nil,or_false] at hn
    rcases hn with rfl | rfl <;> (cases hf; revert m; decide)
  exact load_once hc ⟨by simp,by simp,by simp,by simp⟩ _
    (fun n hn => hknown n (by revert n; decide)) (by decide)

/-- Each library needs the next one, and the 33rd itself. -/
def chain : Libs
  | [k] => some [[if k < 33 then k + 1 else 33]]
  | _ => none

def chainName (k : Nat) : Name := [UInt8.ofNat (k + 1)]

def chainLibs (k : Nat) : List Name := (List.range k).map chainName

theorem chain_step : ∀ k < 33, trimmed (chainName k) = chainName k ∧ chainName k ∉ chainLibs k ∧
    (chain (chainName k)).map parseNeeded = some [chainName (min (k + 1) 32)] := by
  decide +kernel

theorem chain_register (hk : k < 33) (done : List (Phase × Name)) :
    registerLib ⟨chainLibs k,done⟩ (chainName k) = ⟨chainLibs (min (k + 1) 32),done⟩ := by
  unfold registerLib
  split
  · have : k = 32 := by simp [chainLibs,maxLibs] at *; omega
    subst this
    rfl
  · have : k + 1 ≤ 32 := by simp [chainLibs,maxLibs] at *; omega
    simp [chainLibs,range_succ,Nat.min_eq_left this,chainName]

/-- The last of 33 libraries is not entered in the table, and is loaded again and again. -/
theorem load_never_returns : ¬∃ fuel s, loadLibrary chain fuel [1] ⟨[],[]⟩ = some s := by
  have hrun : ∀ fuel k done, k < 33 →
      loadLibrary chain fuel (chainName k) ⟨chainLibs k,done⟩ = none := by
    intro fuel
    induction fuel with
    | zero => exact fun _ _ _ => rfl
    | succ fuel ih =>
      intro k done hk
      obtain ⟨htrim,hnew,hneed⟩ := chain_step k hk
      obtain ⟨needed,hf,hp⟩ := Option.map_eq_some_iff.mp hneed
      have hload : ¬(chainName k = [] ∨ isLoaded ⟨chainLibs k,done⟩ (chainName k) = true) := by
        simpa [isLoaded,chainName] using hnew
      unfold loadLibrary
      simp only [htrim,if_neg hload,hf,hp,Loader.did,chain_register hk,foldlM_cons]
      rw [ih _ _ (by omega)]
      rfl
  rintro ⟨fuel,s,h⟩
  cases h.symm.trans (hrun fuel 0 [] (by decide))

end Miku.Ld
