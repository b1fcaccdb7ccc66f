import Miku.Lib.Run
import Miku.Vfs.State

namespace Miku.Vfs
open Lib Function List Option Probe

namespace Children

/-- A table in which names are found: they are short enough to be kept whole. -/
structure Ok (c : Children) : Prop where
  sound : c.table.Sound ChildSlot.name nameHash
  named : ∀ a ∈ c.table.items, a.hash = nameHash a.name ∧ byteLen a.name ≠ 0 ∧
    byteLen a.name ≤ childNameLen
  counted : c.table.items.encard = c.count

variable {c : Children} {name : Str} {id i : Nat}

theorem ok_new : Children.new.Ok where
  sound := sound_empty 0
  named := by simp [Children.new,items_empty]
  counted := by simp [Children.new,items_empty]

namespace Ok

section

variable (h : c.Ok)
include h

theorem isName_iff (ha : a ∈ c.table.items) : isName name a ↔ a.name = name := by
  obtain ⟨hh,h0,hl⟩ := h.named a ha
  simp only [isName,nameMatches,if_neg h0,if_pos hl,hh,Bool.and_eq_true,beq_iff_eq]
  constructor
  · exact fun h => h.2
  · rintro rfl
    exact ⟨rfl,rfl⟩

theorem slotOf_iff :
    c.slotOf name = some i ↔ ∃ a, c.table.slots i = .occupied a ∧ a.name = name := by
  constructor
  · intro hi
    obtain ⟨a,ha,hp⟩ := occupied_of_scan hi
    exact ⟨a,ha,(h.isName_iff ⟨i,ha⟩).mp hp⟩
  · rintro ⟨a,ha,rfl⟩
    have hs := h.sound.scan_isSome ⟨i,ha⟩ ((h.isName_iff ⟨i,ha⟩).mpr rfl)
    obtain ⟨j,hj⟩ := isSome_iff_exists.mp hs
    obtain ⟨b,hb,hp⟩ := occupied_of_scan hj
    have hn := (h.isName_iff ⟨j,hb⟩).mp hp
    cases h.sound.distinct j i b a hb ha hn
    exact hj

theorem findByName_iff :
    c.findByName name = some id ↔ ∃ a ∈ c.table.items, a.name = name ∧ a.id = id := by
  constructor
  · intro hf
    obtain ⟨i,hi,hid⟩ := bind_eq_some_iff.mp hf
    obtain ⟨a,ha,hn⟩ := h.slotOf_iff.mp hi
    rw [idAt,ha] at hid
    exact ⟨a,⟨i,ha⟩,hn,some.inj hid⟩
  · rintro ⟨a,⟨i,ha⟩,hn,rfl⟩
    refine bind_eq_some_iff.mpr ⟨i,h.slotOf_iff.mpr ⟨a,ha,hn⟩,?_⟩
    rw [idAt,ha]

theorem findByName_eq_none : c.findByName name = none ↔ ∀ a ∈ c.table.items, a.name ≠ name := by
  constructor
  · intro hf a ha hn
    rw [h.findByName_iff.mpr ⟨a,ha,hn,rfl⟩] at hf
    cases hf
  · intro hn
    cases hf : c.findByName name with
    | none => rfl
    | some id =>
      obtain ⟨a,ha,he,_⟩ := h.findByName_iff.mp hf
      exact absurd he (hn a ha)

theorem slotOf_eq_none (hf : c.findByName name = none) : c.slotOf name = none := by
  cases hs : c.slotOf name with
  | none => rfl
  | some i =>
    obtain ⟨a,ha,hn⟩ := h.slotOf_iff.mp hs
    exact absurd hn (h.findByName_eq_none.mp hf a ⟨i,ha⟩)

theorem findByName_congr {c' : Children} (h' : c'.Ok)
    (hi : c'.table.items = c.table.items) : c'.findByName = c.findByName := by
  funext name
  apply Option.ext
  intro id
  rw [h.findByName_iff,h'.findByName_iff,hi]

theorem isEmpty_iff : c.isEmpty ↔ ∀ name, c.findByName name = none := by
  have hc : c.isEmpty ↔ c.table.items = ∅ := by
    rw [isEmpty,beq_iff_eq,← Set.encard_eq_zero,h.counted]
    norm_cast
  rw [hc]
  constructor
  · intro he name
    exact h.findByName_eq_none.mpr (by simp [he])
  · intro hn
    ext a
    simp only [Set.mem_empty_iff_false,iff_false]
    exact fun ha => h.findByName_eq_none.mp (hn a.name) a ha rfl

end

end Ok

section Rehash

variable {t : Probe ChildSlot}

def itemsAt (t : Probe ChildSlot) (is : List Nat) : Set ChildSlot :=
  {a | ∃ i ∈ is, t.slots i = .occupied a}

/-- A table that items are moved to has no tombstones. -/
def Fresh (t : Probe ChildSlot) : Prop := ∀ i, t.slots i ≠ .tombstone

theorem move_spec (ht : t.Sound ChildSlot.name nameHash) (hf : Fresh t) {a : ChildSlot}
    (hh : a.hash = nameHash a.name) (hnew : ∀ b ∈ t.items, b.name ≠ a.name)
    (hroom : t.items.encard < t.cap) :
    (move t (.occupied a)).Sound ChildSlot.name nameHash ∧ Fresh (move t (.occupied a)) ∧
      (move t (.occupied a)).cap = t.cap ∧ (move t (.occupied a)).items = Insert.insert a t.items := by
  cases hj : t.firstEmpty a.hash with
  | none =>
    -- with no empty slot there would be an item in each
    refine absurd (ht.le_encard fun i hi => ?_) (not_le.mpr hroom)
    have hne := find?_eq_none.mp hj i (mem_path hi)
    cases hs : t.slots i with
    | empty => exact absurd (by simp [hs]) hne
    | tombstone => exact absurd hs (hf i)
    | occupied b => exact ⟨b,rfl⟩
  | some j =>
    have hm : move t (.occupied a) = t.set j (.occupied a) := by rw [move,hj]
    obtain ⟨hje,pre,post,hpath,hpre⟩ := find?_eq_some_iff_append.mp hj
    have hempty : t.slots j = .empty := by simpa using hje
    have hp := ht.place (a := a) (hh ▸ hpath) (fun k hk => by simpa using hpre k hk)
      (fun b => by simp [hempty]) hnew
    rw [hm]
    refine ⟨hp.1,?_,rfl,hp.2⟩
    intro i
    by_cases hi : i = j
    · simp [hi,Probe.set]
    · simpa [Probe.set,update_of_ne hi] using hf i

theorem moves_spec {old : Probe ChildSlot} (ho : old.Sound ChildSlot.name nameHash)
    (hh : ∀ a ∈ old.items, a.hash = nameHash a.name) (is : List Nat) (hnd : is.Nodup)
    (ht : t.Sound ChildSlot.name nameHash) (hf : Fresh t)
    (hnew : ∀ b ∈ t.items, b ∈ old.items ∧ b ∉ itemsAt old is) (hroom : old.items.encard < t.cap) :
    let t' := is.foldl (fun t i => move t (old.slots i)) t
    t'.Sound ChildSlot.name nameHash ∧ t'.cap = t.cap ∧ t'.items = t.items ∪ itemsAt old is := by
  induction is generalizing t with
  | nil =>
    refine ⟨ht,rfl,?_⟩
    simp [itemsAt]
  | cons i is ih =>
    obtain ⟨hi,hnd⟩ := nodup_cons.mp hnd
    have hsub : ∀ b, b ∈ itemsAt old is → b ∈ itemsAt old (i :: is) := fun b ⟨j,hj,hb⟩ =>
      ⟨j,mem_cons_of_mem i hj,hb⟩
    cases hs : old.slots i with
    | occupied a =>
      have ha : a ∈ old.items := ⟨i,hs⟩
      have hat : a ∉ t.items := fun h => (hnew a h).2 ⟨i,mem_cons_self,hs⟩
      have hlt : t.items.encard < t.cap := lt_of_le_of_lt
        (Set.encard_le_encard fun b hb => (hnew b hb).1) hroom
      obtain ⟨hm,hmf,hcap,hmi⟩ := move_spec ht hf (hh a ha)
        (fun b hb hn => hat (ho.eq_of_key (hnew b hb).1 ha hn ▸ hb)) hlt
      have hnew' : ∀ b ∈ (move t (.occupied a)).items, b ∈ old.items ∧ b ∉ itemsAt old is := by
        rw [hmi]
        rintro b (rfl | hb)
        · refine ⟨ha,fun ⟨j,hj,hjb⟩ => hi ?_⟩
          rwa [ho.distinct i j _ _ hs hjb rfl]
        · exact ⟨(hnew b hb).1,fun h => (hnew b hb).2 (hsub b h)⟩
      obtain ⟨hrs,hrc,hri⟩ := ih hnd hm hmf hnew' (hcap ▸ hroom)
      rw [foldl_cons,hs]
      refine ⟨hrs,hrc.trans hcap,?_⟩
      rw [hri,hmi]
      ext b
      simp only [Set.mem_union,Set.mem_insert_iff,itemsAt,mem_cons,exists_eq_or_imp,hs,
        Set.mem_ofPred_eq,Slot.occupied.injEq]
      tauto
    | empty | tombstone =>
      have hrest := ih hnd ht hf (fun b hb => ⟨(hnew b hb).1,fun h => (hnew b hb).2 (hsub b h)⟩) hroom
      rw [foldl_cons,hs]
      refine ⟨hrest.1,hrest.2.1,hrest.2.2.trans ?_⟩
      simp [itemsAt,hs]

end Rehash

namespace Ok

section

variable (h : c.Ok)
include h

theorem rehash_spec (hc : 0 < c.table.cap) :
    c.rehash.Ok ∧ c.rehash.table.items = c.table.items ∧ c.rehash.table.cap = c.table.cap * 2 := by
  have hroom : c.table.items.encard < ((c.table.cap * 2 : Nat) : ℕ∞) := by
    refine lt_of_le_of_lt h.sound.encard_le ?_
    norm_cast
    omega
  obtain ⟨hs,hcap,hi⟩ := moves_spec h.sound (fun a ha => (h.named a ha).1) (List.range c.table.cap)
    nodup_range (sound_empty (c.table.cap * 2)) (fun _ => nofun)
    (by simp [items_empty]) hroom
  have hitems : c.rehash.table.items = c.table.items := by
    refine hi.trans ?_
    rw [items_empty,Set.empty_union]
    ext a
    constructor
    · exact fun ⟨i,_,ha⟩ => ⟨i,ha⟩
    · exact fun ⟨i,ha⟩ => ⟨i,mem_range.mpr (h.sound.lt_cap ha),ha⟩
  exact ⟨⟨hs,hitems ▸ h.named,hitems ▸ h.counted⟩,hitems,hcap⟩

theorem ensureInit_spec :
    c.ensureInit.Ok ∧ c.ensureInit.table.items = c.table.items ∧ 0 < c.ensureInit.table.cap := by
  rw [ensureInit]
  split
  · rename_i hc
    have hi : c.table.items = ∅ := by
      ext a
      simp only [Set.mem_empty_iff_false,iff_false]
      rintro ⟨i,hi⟩
      have := h.sound.lt_cap hi
      omega
    have he : (Probe.empty initialCapacity : Probe ChildSlot).items = c.table.items := by
      rw [items_empty,hi]
    exact ⟨⟨sound_empty _,he ▸ h.named,he ▸ h.counted⟩,he,by simp [Probe.empty,initialCapacity]⟩
  · exact ⟨h,rfl,by omega⟩

theorem grown_spec :
    c.grown.Ok ∧ c.grown.table.items = c.table.items ∧ c.grown.count < c.grown.table.cap := by
  obtain ⟨h1,hi1,hc1⟩ := h.ensureInit_spec
  rw [grown]
  split
  · obtain ⟨h2,hi2,hc2⟩ := h1.rehash_spec hc1
    refine ⟨h2,hi2.trans hi1,?_⟩
    have hle := h1.sound.encard_le
    rw [h1.counted] at hle
    norm_cast at hle
    have hcount : c.ensureInit.rehash.count = c.ensureInit.count := rfl
    omega
  · refine ⟨h1,hi1,?_⟩
    omega

theorem insert_spec (h0 : byteLen name ≠ 0) (hl : byteLen name ≤ childNameLen)
    (hf : c.findByName name = none) : ∃ c', c.insert name id = (true,c') ∧ c'.Ok ∧
      c'.findByName = update c.findByName name (some id) := by
  obtain ⟨hg,hi,hroom⟩ := h.grown_spec
  have hgf : c.grown.findByName name = none := by rwa [h.findByName_congr hg hi]
  have hnew := hg.findByName_eq_none.mp hgf
  let a : ChildSlot := ⟨nameHash name,id,name⟩
  cases hv : vacancy c.grown.table.slots none (c.grown.table.path (nameHash name)) with
  | none =>
    have hfull := hg.sound.le_encard fun i hi => occupied_of_vacancy hv i (mem_path hi)
    rw [hg.counted] at hfull
    norm_cast at hfull
    omega
  | some i =>
    obtain ⟨pre,post,hpath,hpre,hfree⟩ := vacancy_spec hv
    obtain ⟨hps,hpi⟩ := hg.sound.place (a := a) hpath hpre hfree hnew
    have hins : c.insert name id = (true,⟨c.grown.table.set i (.occupied a),c.grown.count + 1⟩) := by
      simp [Children.insert,hg.slotOf_eq_none hgf,hv,a]
    have hok : Children.Ok ⟨c.grown.table.set i (.occupied a),c.grown.count + 1⟩ := by
      refine ⟨hps,?_,?_⟩
      · rw [hpi]
        rintro b (rfl | hb)
        · exact ⟨rfl,h0,hl⟩
        · exact hg.named b hb
      · rw [hpi,Set.encard_insert_of_notMem fun ha => hnew a ha rfl,hg.counted]
        norm_cast
    refine ⟨_,hins,hok,?_⟩
    funext n
    apply Option.ext
    intro k
    rw [hok.findByName_iff,hpi]
    by_cases hn : n = name
    · subst hn
      rw [update_self]
      constructor
      · rintro ⟨b,rfl | hb,hbn,rfl⟩
        · rfl
        · exact absurd hbn (hnew b hb)
      · intro hk
        exact ⟨a,.inl rfl,rfl,some.inj hk⟩
    · rw [update_of_ne hn,h.findByName_iff,hi]
      constructor
      · rintro ⟨b,rfl | hb,hbn,hbk⟩
        · exact absurd hbn.symm hn
        · exact ⟨b,hb,hbn,hbk⟩
      · exact fun ⟨b,hb,hbn,hbk⟩ => ⟨b,.inr hb,hbn,hbk⟩

theorem insert_taken (hf : c.findByName name ≠ none) :
    ∃ c', c.insert name id = (false,c') ∧ c'.Ok ∧ c'.findByName = c.findByName := by
  obtain ⟨hg,hi,_⟩ := h.grown_spec
  have hgf := h.findByName_congr hg hi
  have hs : (c.grown.slotOf name).isSome := by
    cases hs : c.grown.slotOf name with
    | none => exact absurd (by rw [← hgf,findByName,hs]; rfl) hf
    | some i => rfl
  exact ⟨c.grown,by simp [Children.insert,hs],hg,hgf⟩

theorem bury_spec (ha : c.table.slots i = .occupied a) :
    (c.bury i).Ok ∧ (c.bury i).findByName = update c.findByName a.name none := by
  obtain ⟨hs,hi⟩ := h.sound.bury ha
  have hok : (c.bury i).Ok := by
    refine ⟨hs,fun b hb => h.named b (hi ▸ hb).1,?_⟩
    have := Set.encard_sdiff_singleton_of_mem (s := c.table.items) ⟨i,ha⟩
    rw [bury,hi,this,h.counted]
    norm_cast
  refine ⟨hok,?_⟩
  have hmem : ∀ b, b ∈ (c.bury i).table.items ↔ b ∈ c.table.items ∧ b.name ≠ a.name := by
    intro b
    rw [bury,hi]
    constructor
    · rintro ⟨hb,hne⟩
      exact ⟨hb,fun hn => hne (h.sound.eq_of_key hb ⟨i,ha⟩ hn)⟩
    · rintro ⟨hb,hne⟩
      exact ⟨hb,fun he => hne (congrArg ChildSlot.name he)⟩
  funext n
  apply Option.ext
  intro k
  rw [hok.findByName_iff]
  by_cases hn : n = a.name
  · subst hn
    rw [update_self]
    constructor
    · rintro ⟨b,hb,hbn,_⟩
      exact absurd hbn ((hmem b).mp hb).2
    · exact nofun
  · rw [update_of_ne hn,h.findByName_iff]
    constructor
    · exact fun ⟨b,hb,hbn,hbk⟩ => ⟨b,((hmem b).mp hb).1,hbn,hbk⟩
    · exact fun ⟨b,hb,hbn,hbk⟩ => ⟨b,(hmem b).mpr ⟨hb,hbn ▸ hn⟩,hbn,hbk⟩

theorem removeByName_spec (name : Str) : (c.removeByName name).Ok ∧
      (c.removeByName name).findByName = update c.findByName name none := by
  rw [removeByName]
  split
  · rename_i i hi
    obtain ⟨a,ha,rfl⟩ := h.slotOf_iff.mp hi
    exact h.bury_spec ha
  · rename_i hi
    have hf : c.findByName name = none := by rw [findByName,hi]; rfl
    exact ⟨h,by rw [← hf,update_eq_self]⟩

theorem remove_cases (hash id : Nat) : (c.remove hash id).Ok ∧
      ((∃ name, nameHash name = hash ∧ c.findByName name = some id ∧
          (c.remove hash id).findByName = update c.findByName name none) ∨
        (∀ name, nameHash name = hash → c.findByName name ≠ some id) ∧
          (c.remove hash id).findByName = c.findByName) := by
  rw [remove]
  split
  · rename_i i hi
    obtain ⟨a,ha,hp⟩ := occupied_of_scan hi
    simp only [Bool.and_eq_true,beq_iff_eq] at hp
    obtain ⟨hok,hfind⟩ := h.bury_spec ha
    refine ⟨hok,.inl ⟨a.name,?_,h.findByName_iff.mpr ⟨a,⟨i,ha⟩,rfl,hp.2⟩,hfind⟩⟩
    rw [← (h.named a ⟨i,ha⟩).1,hp.1]
  · rename_i hi
    refine ⟨h,.inr ⟨fun name hn hf => ?_,rfl⟩⟩
    obtain ⟨a,ha,rfl,rfl⟩ := h.findByName_iff.mp hf
    have hs := h.sound.scan_isSome (p := fun b => b.hash == nameHash a.name && b.id == a.id) ha
      (by simp [(h.named a ha).1])
    rw [hn,hi] at hs
    cases hs

theorem remove_spec (hf : c.findByName name = some id)
    (honly : ∀ n, c.findByName n = some id → n = name) : (c.remove (nameHash name) id).Ok ∧
      (c.remove (nameHash name) id).findByName = update c.findByName name none := by
  obtain ⟨hok,⟨n,-,hn,hfind⟩ | ⟨hno,-⟩⟩ := h.remove_cases (nameHash name) id
  · obtain rfl := honly n hn
    exact ⟨hok,hfind⟩
  · exact absurd hf (hno name rfl)

end

end Ok

inductive Call
  | insert (name : Str) (id : Nat)
  | removeByName (name : Str)
  | remove (hash id : Nat)

def step (c : Children) : Call → Children
  | .insert name id => (c.insert name id).2
  | .removeByName name => c.removeByName name
  | .remove hash id => c.remove hash id

/-- What a call makes of the map from names to identifiers. Removal by identifier is given
the hash of a name only. -/
def Maps (c : Children) (call : Call) : Prop :=
  match call with
  | .insert name id => (c.insert name id).1 = (c.findByName name).isNone ∧
    (c.step call).findByName =
      if c.findByName name = none then update c.findByName name (some id) else c.findByName
  | .removeByName name => (c.step call).findByName = update c.findByName name none
  | .remove hash id =>
    (∃ name, nameHash name = hash ∧ c.findByName name = some id ∧
        (c.step call).findByName = update c.findByName name none) ∨
      (∀ name, nameHash name = hash → c.findByName name ≠ some id) ∧
        (c.step call).findByName = c.findByName

/-- A name that is put in can be kept whole. -/
def Call.Kept : Call → Prop
  | .insert name _ => byteLen name ≠ 0 ∧ byteLen name ≤ childNameLen
  | _ => True

theorem Ok.step (h : c.Ok) (call : Call) (hk : call.Kept) : (c.step call).Ok ∧ c.Maps call := by
  cases call with
  | insert name id =>
    by_cases hf : c.findByName name = none
    · obtain ⟨c',hc,hok,hfind⟩ := @insert_spec c name id h hk.1 hk.2 hf
      simp only [Children.step,Maps,hc,hf]
      exact ⟨hok,rfl,hfind⟩
    · obtain ⟨c',hc,hok,hfind⟩ := @insert_taken c name id h hf
      simp only [Children.step,Maps,hc,if_neg hf]
      exact ⟨hok,(isNone_eq_false_iff.mpr (ne_none_iff_isSome.mp hf)).symm,hfind⟩
  | removeByName name => exact h.removeByName_spec name
  | remove hash id => exact h.remove_cases hash id

/-- A table is a finite map to every sequence of calls that puts in no empty name and none of
more than 32 bytes. -/
theorem children_map (cs : List Call) (h : ∀ call ∈ cs, call.Kept) :
    (∀ name, Children.new.findByName name = none) ∧ Along Children.step Maps Children.new cs := by
  refine ⟨fun _ => rfl,?_⟩
  have hrun : ∀ c : Children, c.Ok → Along Children.step Maps c cs := by
    induction cs with
    | nil => exact fun _ _ => trivial
    | cons call cs ih =>
      intro c hc
      obtain ⟨hok,hm⟩ := hc.step call (h call mem_cons_self)
      exact ⟨hm,ih (fun d hd => h d (mem_cons_of_mem _ hd)) _ hok⟩
  exact hrun _ ok_new

theorem children_map_two : Along Children.step Maps Children.new [.insert ['a'] 5,.removeByName ['a']] :=
  (children_map [.insert ['a'] 5,.removeByName ['a']] (by
    intro call hc
    simp only [mem_cons,not_mem_nil,or_false] at hc
    rcases hc with rfl | rfl
    · exact ⟨by decide,by decide⟩
    · trivial)).2

def longName (tail : List Char) : Str := List.replicate 32 'a' ++ tail

/-- Two names of 37 bytes with the same hash: a lookup of the one returns what was put in
under the other. -/
theorem long_names_confused : longName ['b','g','w','z','x'] ≠ longName ['b','1','6','c','d'] ∧
    (Children.new.insert (longName ['b','g','w','z','x']) 5).2.findByName
      (longName ['b','1','6','c','d']) = some 5 := by
  decide +kernel

end Children

end Miku.Vfs
