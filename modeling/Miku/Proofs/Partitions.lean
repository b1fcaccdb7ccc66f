import Mathlib.Data.List.Nodup
import Miku.Fs.Gpt
import Miku.Lib.Crc
import Miku.Lib.Run

namespace Miku.Fs.Gpt
open Lib Function

theorem ofFn_of_holds {b : Bytes} {v : Vector UInt8 n} (h : Holds b o v.toList) :
    (Vector.ofFn fun i : Fin n => b (o + i)) = v := by
  ext i hi
  rw [Vector.getElem_ofFn,h i (by simpa using hi),Vector.getElem_toList]

open List

section RoundTrip

variable {b : Bytes}

theorem u16_of_holds {x : UInt16} (h : Holds b o (le16Bytes x.toNat)) :
    UInt16.ofNat (le16 b o) = x := by
  rw [le16_of_holds h,Nat.mod_eq_of_lt x.toNat_lt,UInt16.ofNat_toNat]

theorem u32_of_holds {x : UInt32} (h : Holds b o (le32Bytes x.toNat)) :
    UInt32.ofNat (le32 b o) = x := by
  rw [le32_of_holds h,Nat.mod_eq_of_lt x.toNat_lt,UInt32.ofNat_toNat]

theorem u64_of_holds {x : UInt64} (h : Holds b o (le64Bytes x.toNat)) :
    UInt64.ofNat (le64 b o) = x := by
  rw [le64_of_holds h,Nat.mod_eq_of_lt x.toNat_lt,UInt64.ofNat_toNat]

theorem length_entryToBytes (e : GptEntry) : (entryToBytes e).length = entrySize := by
  simp [entryToBytes,entrySize,length_flatMap]

theorem bytesToEntry_of_holds (h : Holds b o (entryToBytes e)) : bytesToEntry b o = e := by
  simp only [entryToBytes,holds_append,Vector.length_toList,length_le64Bytes] at h
  obtain ⟨ht,hu,hs,he,ha,hn⟩ := h
  have hname : (Vector.ofFn fun i : Fin 36 => UInt16.ofNat (le16 b (o + 56 + 2 * i))) = e.name := by
    ext i hi
    have := u16_of_holds (holds_flatMap (fun _ => length_le16Bytes) hn i (by simpa using hi))
    rw [Vector.getElem_toList] at this
    rw [Vector.getElem_ofFn,this]
  rw [bytesToEntry,ofFn_of_holds ht,ofFn_of_holds hu,u64_of_holds hs,u64_of_holds he,
    u64_of_holds ha,hname]

theorem readHeader_of_holds (hb : Holds b 0 (headerBytes h)) : readHeader b = h := by
  simp only [headerBytes,holds_append,Vector.length_toList,length_le64Bytes,length_le32Bytes] at hb
  obtain ⟨h₁,h₂,h₃,h₄,-,h₅,h₆,h₇,h₈,h₉,h₁₀,h₁₁,h₁₂,h₁₃⟩ := hb
  rw [readHeader,u64_of_holds h₁,u32_of_holds h₂,u32_of_holds h₃,u32_of_holds h₄,u64_of_holds h₅,
    u64_of_holds h₆,u64_of_holds h₇,u64_of_holds h₈,ofFn_of_holds h₉,u64_of_holds h₁₀,
    u32_of_holds h₁₁,u32_of_holds h₁₂,u32_of_holds h₁₃]

theorem holds_sector (bs : List UInt8) : Holds (sector bs) 0 bs := holds_put

theorem readHeader_headerToBuf (h : GptHeader) : readHeader (headerToBuf h) = h :=
  readHeader_of_holds (holds_sector _)

theorem bytesToEntry_entrySector (es : Nat → GptEntry) (chunk : Nat) (hj : j < 4) :
    bytesToEntry (entrySector es chunk) (j * entrySize) = es (chunk * 4 + j) := by
  have h := holds_flatMap (fun j => length_entryToBytes (es (chunk * 4 + j)))
    (holds_sector ((List.range 4).flatMap fun j => entryToBytes (es (chunk * 4 + j)))) j
    (by simpa using hj)
  rw [getElem_range,Nat.zero_add,Nat.mul_comm entrySize] at h
  exact bytesToEntry_of_holds h

theorem readEntries_of_sector
    (h : d (entriesLba + i / 4) = entrySector es (i / 4)) : readEntries d i = es i := by
  rw [readEntries,h,bytesToEntry_entrySector _ _ (Nat.mod_lt _ (by decide))]
  congr 1
  omega

end RoundTrip

section Writes

variable {d : Disk} {ws : List (Nat × Bytes)}

theorem applyWrites_old_or_new (h : ∀ w ∈ ws, w.1 = a → w.2 = x) :
    applyWrites d ws a = d a ∨ applyWrites d ws a = x := by
  induction ws generalizing d with
  | nil => exact .inl rfl
  | cons w ws ih =>
    have hrest := ih (d := update d w.1 w.2) fun v hv => h v (mem_cons_of_mem _ hv)
    by_cases hw : w.1 = a
    · right
      rcases hrest with hr | hr
      · rw [applyWrites,foldl_cons]
        rw [applyWrites] at hr
        rw [hr,hw,update_self,h w mem_cons_self hw]
      · exact hr
    · rw [update_of_ne (Ne.symm hw)] at hrest
      exact hrest

theorem applyWrites_of_mem (hm : (a,x) ∈ ws) (h : ∀ w ∈ ws, w.1 = a → w.2 = x) :
    applyWrites d ws a = x := by
  induction ws generalizing d with
  | nil => cases hm
  | cons w ws ih =>
    rcases mem_cons.1 hm with rfl | hm
    · rcases applyWrites_old_or_new (d := update d a x)
        (fun v hv => h v (mem_cons_of_mem _ hv)) with hr | hr
      · rw [update_self] at hr
        exact hr
      · exact hr
    · exact ih hm fun v hv => h v (mem_cons_of_mem _ hv)

end Writes

/-- A disk with room for both tables and at least one sector between them. -/
structure DiskSize where
  sectors : UInt64
  large : 68 ≤ sectors.toNat

section Tables

variable {n : DiskSize} {t : GptTable}

theorem toNat_sub {k : UInt64} (hk : k.toNat ≤ 68) :
    (n.sectors - k).toNat = n.sectors.toNat - k.toNat :=
  UInt64.toNat_sub_of_le _ _ (UInt64.le_iff_toNat_le.2 (Nat.le_trans hk n.large))

theorem nodup_writeFullTable (ht : t.totalSectors = n.sectors) :
    ((writeFullTable t).map Prod.fst).Nodup := by
  have h₁ := toNat_sub (n := n) (k := 1) (by decide)
  have h₃₃ := toNat_sub (n := n) (k := 33) (by decide)
  have hn := n.large
  simp only [UInt64.reduceToNat] at h₁ h₃₃
  simp only [writeFullTable,writeEntries,map_cons,map_append,List.map_map,
    Function.comp_def,← range'_eq_map_range,ht,h₁,h₃₃,entriesLba,headerLba]
  simp only [cons_append,nodup_cons,nodup_append,mem_append,mem_cons,mem_range'_1]
  grind

theorem header_mem (t : GptTable) : (headerLba,headerToBuf t.header) ∈ writeFullTable t := by
  simp [writeFullTable]

theorem entries_mem (t : GptTable) (hc : c < 32) :
    (entriesLba + c,entrySector t.entries c) ∈ writeFullTable t := by
  simp only [writeFullTable,writeEntries,cons_append,mem_cons,mem_append,List.mem_map,mem_range]
  exact .inr (.inl ⟨c,hc,rfl⟩)

theorem write_of_mem (ht : t.totalSectors = n.sectors)
    (hm : (a,x) ∈ writeFullTable t) : ∀ w ∈ writeFullTable t, w.1 = a → w.2 = x := by
  intro w hw he
  rw [inj_on_of_nodup_map (nodup_writeFullTable ht) hw hm he]

end Tables

/-- The partitions lie between the two tables. -/
structure Apart (n : DiskSize) (es : Nat → GptEntry) : Prop where
  within : ∀ i < maxEntries, (es i).isUsed = true →
    34 ≤ (es i).startLba.toNat ∧ (es i).startLba.toNat ≤ (es i).endLba.toNat ∧
      (es i).endLba.toNat + 34 ≤ n.sectors.toNat
  disjoint : ∀ i < maxEntries, ∀ j < maxEntries, i ≠ j → (es i).isUsed = true →
    (es j).isUsed = true →
      (es i).endLba.toNat < (es j).startLba.toNat ∨ (es j).endLba.toNat < (es i).startLba.toNat

/-- What can be read from the disk, also after a write failed. -/
structure Sound (n : DiskSize) (d : Disk) : Prop where
  header : (readHeader (d headerLba)).signature = signature →
    (readHeader (d headerLba)).alternateLba = n.sectors - 1
  entries : Apart n (readEntries d)

/-- The header passes the checks of `gptRead`. -/
structure Readable (h : GptHeader) : Prop where
  signature : h.signature = Gpt.signature
  size : h.sizeOfPartitionEntry.toNat = entrySize
  number : h.numPartitionEntries.toNat ≤ maxEntries
  alternate : h.alternateLba.toNat + 1 ≠ 18446744073709551616

section Steps

variable {n : DiskSize} {d : Disk} {t : GptTable}

theorem gptRead_eq (h : Readable (readHeader (d headerLba))) :
    gptRead d = .ok ⟨readHeader (d headerLba),readEntries d,
      (readHeader (d headerLba)).alternateLba + 1⟩ := by
  have hs := h.size
  have hn := Nat.not_lt.2 h.number
  simp [gptRead,h.signature,hs,hn,h.alternate]

theorem readable_of_gptRead (h : gptRead d = .ok t) : Readable (readHeader (d headerLba)) ∧
      t = ⟨readHeader (d headerLba),readEntries d,
        (readHeader (d headerLba)).alternateLba + 1⟩ := by
  unfold gptRead at h
  dsimp only at h
  split at h
  · cases h
  · rename_i hsig
    split at h
    · cases h
    · rename_i hfmt
      obtain ⟨hsize,hnum⟩ := not_or.1 hfmt
      split at h
      · cases h
      · rename_i halt
        exact ⟨⟨not_not.1 hsig,not_not.1 hsize,Nat.not_lt.1 hnum,halt⟩,(Except.ok.inj h).symm⟩

/-- Entries of two tables, mixed: enough that the partitions of the one are apart from
those of the other. -/
theorem Apart.mix (h : Apart n es) (h' : Apart n es')
    (hc : ∀ i < maxEntries, ∀ j < maxEntries, i ≠ j → (es i).isUsed = true → (es' j).isUsed = true →
      (es i).endLba.toNat < (es' j).startLba.toNat ∨ (es' j).endLba.toNat < (es i).startLba.toNat)
    (hm : ∀ i < maxEntries, mixed i = es i ∨ mixed i = es' i) : Apart n mixed := by
  refine ⟨fun i hi hu => ?_,fun i hi j hj hij hu hv => ?_⟩
  · rcases hm i hi with he | he
    · rw [he] at hu ⊢
      exact h.within i hi hu
    · rw [he] at hu ⊢
      exact h'.within i hi hu
  · rcases hm i hi with hei | hei <;> rcases hm j hj with hej | hej <;>
      rw [hei] at hu ⊢ <;> rw [hej] at hv ⊢
    · exact h.disjoint i hi j hj hij hu hv
    · exact hc i hi j hj hij hu hv
    · exact (hc j hj i hi (Ne.symm hij) hv hu).symm
    · exact h'.disjoint i hi j hj hij hu hv

variable {ws : List (Nat × Bytes)}

section

variable (k : Nat) (ht : t.totalSectors = n.sectors)
    (hws : ∀ w ∈ ws, w ∈ writeFullTable t ∨ w.1 = 0)
include k ht hws

theorem readEntries_mix (hi : i < maxEntries) :
    readEntries (applyWrites d (ws.take k)) i = readEntries d i ∨
      readEntries (applyWrites d (ws.take k)) i = t.entries i := by
  have hi' : i / 4 < 32 := by unfold maxEntries at hi; omega
  have h := @applyWrites_old_or_new d (ws.take k) (entriesLba + i / 4)
    (entrySector t.entries (i / 4)) (by
      intro w hw he
      rcases hws w (mem_of_mem_take hw) with hw | hw
      · exact write_of_mem ht (entries_mem t hi') w hw he
      · unfold entriesLba at he
        omega)
  rcases h with h | h
  · left
    rw [readEntries,h]
    rfl
  · right
    exact readEntries_of_sector h

theorem readHeader_mix :
    readHeader (applyWrites d (ws.take k) headerLba) = readHeader (d headerLba) ∨
      readHeader (applyWrites d (ws.take k) headerLba) = t.header := by
  have h := @applyWrites_old_or_new d (ws.take k) headerLba (headerToBuf t.header) (by
      intro w hw he
      rcases hws w (mem_of_mem_take hw) with hw | hw
      · exact write_of_mem ht (header_mem t) w hw he
      · unfold headerLba at he
        omega)
  rcases h with h | h
  · exact .inl (by rw [h])
  · exact .inr (by rw [h,readHeader_headerToBuf])

end

variable {io : Io}

/-- Any beginning of the writes of a table that fits the one on the disk. -/
theorem Sound.write (hs : Sound n d) (ws : List (Nat × Bytes)) (t : GptTable)
    (ht : t.totalSectors = n.sectors) (hws : ∀ w ∈ ws, w ∈ writeFullTable t ∨ w.1 = 0)
    (hh : t.header.alternateLba = n.sectors - 1) (he : Apart n t.entries)
    (hc : ∀ i < maxEntries, ∀ j < maxEntries, i ≠ j → (readEntries d i).isUsed = true →
      (t.entries j).isUsed = true → (readEntries d i).endLba.toNat < (t.entries j).startLba.toNat ∨
        (t.entries j).endLba.toNat < (readEntries d i).startLba.toNat) :
    Sound n (commit io ws d).2 := by
  refine ⟨fun hsig => ?_,hs.entries.mix he hc fun i hi => readEntries_mix io.writes ht hws hi⟩
  rw [commit] at hsig ⊢
  rcases readHeader_mix (d := d) io.writes ht hws with h | h
  · rw [h] at hsig ⊢
    exact hs.header hsig
  · rw [h]
    exact hh

theorem Sound.gptRead (hs : Sound n d) (h : gptRead d = .ok t) :
    t.totalSectors = n.sectors ∧ t.header.alternateLba = n.sectors - 1 ∧
      t.entries = readEntries d := by
  obtain ⟨hr,rfl⟩ := readable_of_gptRead h
  have halt := hs.header hr.signature
  exact ⟨by rw [halt]; exact UInt64.sub_add_cancel _ _,halt,rfl⟩

theorem nextFreeLba_spec (h : Apart n t.entries) :
    34 ≤ t.nextFreeLba.toNat ∧ t.nextFreeLba.toNat + 33 ≤ n.sectors.toNat ∧
      ∀ i < maxEntries, (t.entries i).isUsed = true →
        (t.entries i).endLba.toNat < t.nextFreeLba.toNat := by
  -- the invariant of the loop, over the entries seen so far
  have loop : ∀ (l : List Nat) (m : UInt64), (∀ i ∈ l, i < maxEntries) → 34 ≤ m.toNat →
      m.toNat + 33 ≤ n.sectors.toNat →
      let m' := l.foldl (fun m i => if (t.entries i).isUsed ∧ m ≤ (t.entries i).endLba
        then (t.entries i).endLba + 1 else m) m
      m.toNat ≤ m'.toNat ∧ m'.toNat + 33 ≤ n.sectors.toNat ∧
        ∀ i ∈ l, (t.entries i).isUsed = true → (t.entries i).endLba.toNat < m'.toNat := by
    intro l
    induction l with
    | nil => exact fun m _ _ hle => ⟨.refl,hle,fun i hi => absurd hi (not_mem_nil)⟩
    | cons i l ih =>
      intro m hl h34 hle
      rw [foldl_cons]
      have hi := hl i mem_cons_self
      have hl' : ∀ j ∈ l, j < maxEntries := fun j hj => hl j (mem_cons_of_mem _ hj)
      split
      · rename_i hu
        have hend := (h.within i hi hu.1).2.2
        have hlt := n.sectors.toNat_lt
        have hadd : ((t.entries i).endLba + 1).toNat = (t.entries i).endLba.toNat + 1 := by
          have h1 : (1 : UInt64).toNat = 1 := rfl
          rw [UInt64.toNat_add]
          omega
        have hm := UInt64.le_iff_toNat_le.1 hu.2
        obtain ⟨h₁,h₂,h₃⟩ := ih ((t.entries i).endLba + 1) hl' (by omega) (by omega)
        refine ⟨by omega,h₂,fun j hj huj => ?_⟩
        rcases mem_cons.1 hj with rfl | hj
        · omega
        · exact h₃ j hj huj
      · rename_i hu
        obtain ⟨h₁,h₂,h₃⟩ := ih m hl' h34 hle
        refine ⟨h₁,h₂,fun j hj huj => ?_⟩
        rcases mem_cons.1 hj with rfl | hj
        · have : ¬ m.toNat ≤ (t.entries j).endLba.toNat :=
            fun hm => hu ⟨huj,UInt64.le_iff_toNat_le.2 hm⟩
          omega
        · exact h₃ j hj huj
  have hn := n.large
  have h34 : firstUsable.toNat = 34 := rfl
  obtain ⟨h₁,h₂,h₃⟩ := loop (List.range maxEntries) firstUsable
    (fun i hi => mem_range.1 hi) (by omega) (by omega)
  exact ⟨by rw [h34] at h₁; exact h₁,h₂,fun i hi => h₃ i (mem_range.2 hi)⟩

variable {e : GptEntry}

theorem newEntry_spec (hn : t.totalSectors = n.sectors) (h : Apart n t.entries)
    (he : newEntry t g size name seed = .ok (slot,e)) :
    34 ≤ e.startLba.toNat ∧ e.startLba.toNat ≤ e.endLba.toNat ∧
      e.endLba.toNat + 34 ≤ n.sectors.toNat ∧ ∀ i < maxEntries, (t.entries i).isUsed = true →
        (t.entries i).endLba.toNat < e.startLba.toNat := by
  obtain ⟨h₁,-,h₃⟩ := nextFreeLba_spec h
  unfold newEntry at he
  split at he
  · cases he
  · dsimp only at he
    split at he
    · cases he
    · rename_i hsize
      split at he
      · cases he
      · rename_i hsum
        split at he
        · cases he
        · rename_i hend
          cases he
          have hpos : 0 < size.toNat := by
            rcases Nat.eq_zero_or_pos size.toNat with h0 | h0
            · exact absurd (UInt64.toNat_inj.1 h0) hsize
            · exact h0
          have hadd : (t.nextFreeLba + size).toNat = t.nextFreeLba.toNat + size.toNat := by
            rw [UInt64.toNat_add]
            omega
          have hsub : (t.nextFreeLba + size - 1).toNat = t.nextFreeLba.toNat + size.toNat - 1 := by
            rw [UInt64.toNat_sub_of_le _ _ (UInt64.le_iff_toNat_le.2
              (by rw [hadd]; exact Nat.le_trans hpos (Nat.le_add_left _ _))),hadd]
            rfl
          have hlast := UInt64.not_lt.1 hend
          rw [UInt64.le_iff_toNat_le,GptTable.lastUsableLba,hn,toNat_sub (by decide)] at hlast
          have h34 : (34 : UInt64).toNat = 34 := rfl
          have := n.large
          exact ⟨h₁,by dsimp only; omega,by dsimp only; omega,h₃⟩

theorem apart_empty : Apart n fun _ => GptEntry.empty :=
  ⟨fun _ _ h => absurd h (by decide),fun _ _ _ _ _ h => absurd h (by decide)⟩

/-- An entry that may be put into the table: unused, or behind all partitions. -/
structure Fresh (n : DiskSize) (es : Nat → GptEntry) (e : GptEntry) : Prop where
  within : e.isUsed = true → 34 ≤ e.startLba.toNat ∧ e.startLba.toNat ≤ e.endLba.toNat ∧
    e.endLba.toNat + 34 ≤ n.sectors.toNat
  behind : e.isUsed = true → ∀ i < maxEntries, (es i).isUsed = true →
    (es i).endLba.toNat < e.startLba.toNat

theorem fresh_empty : Fresh n es GptEntry.empty :=
  ⟨fun h => absurd h (by decide),fun h => absurd h (by decide)⟩

theorem Apart.cross (h : Apart n es) (he : Fresh n es e) :
    ∀ i < maxEntries, ∀ j < maxEntries, i ≠ j → (es i).isUsed = true →
      (update es slot e j).isUsed = true →
      (es i).endLba.toNat < (update es slot e j).startLba.toNat ∨
        (update es slot e j).endLba.toNat < (es i).startLba.toNat := by
  intro i hi j hj hij hu hv
  by_cases hs : j = slot
  · subst hs
    rw [update_self] at hv ⊢
    exact .inl (he.behind hv i hi hu)
  · rw [update_of_ne hs] at hv ⊢
    exact h.disjoint i hi j hj hij hu hv

theorem Apart.update (h : Apart n es) (he : Fresh n es e) : Apart n (update es slot e) := by
  refine ⟨fun i hi hu => ?_,fun i hi j hj hij hu hv => ?_⟩
  · by_cases hs : i = slot
    · subst hs
      rw [update_self] at hu ⊢
      exact he.within hu
    · rw [update_of_ne hs] at hu ⊢
      exact h.within i hi hu
  · by_cases hs : i = slot
    · have hne : j ≠ slot := fun hj => hij (hs.trans hj.symm)
      rw [update_of_ne hne] at hv
      have := h.cross he j hj i hi (Ne.symm hij) hv hu
      rw [update_of_ne hne]
      exact this.symm
    · rw [update_of_ne hs] at hu ⊢
      exact h.cross he i hi j hj hij hu hv

section

variable (hs : Sound n d)
include hs

/-- A table read from the disk with one entry replaced, written as far as the device
gets. -/
theorem Sound.replace (h : Gpt.gptRead d = .ok t) (he : Fresh n t.entries e) :
    Sound n (commit io (writeFullTable (t.setEntry slot e).stamped) d).2 := by
  obtain ⟨hn,hh,hes⟩ := hs.gptRead h
  rw [hes] at he
  have hes' : (t.setEntry slot e).stamped.entries = update (readEntries d) slot e := by
    rw [← hes]
    rfl
  have hn' : (t.setEntry slot e).stamped.totalSectors = n.sectors := hn
  have hh' : (t.setEntry slot e).stamped.header.alternateLba = n.sectors - 1 := hh
  generalize (t.setEntry slot e).stamped = t' at *
  refine hs.write _ t' hn' (fun w hw => .inl hw) hh' ?_ ?_
  · rw [hes']
    exact hs.entries.update he
  · rw [hes']
    exact hs.entries.cross he

theorem Sound.init : Sound n (gptInit n.sectors io d).2 := by
  refine hs.write _ (initTable n.sectors).stamped rfl (fun w hw => ?_) rfl apart_empty
    fun i _ j _ _ _ hu => absurd hu ?_
  · rcases mem_cons.1 hw with rfl | hw
    · exact .inr rfl
    · exact .inl hw
  · change ¬ GptEntry.empty.isUsed = true
    decide

theorem Sound.add {io : Io} {size : UInt64} {name : List Char} :
    Sound n (gptAddPartition g size name seed io d).2 := by
  unfold gptAddPartition
  split
  · exact hs
  · rename_i t ht
    have ht : Gpt.gptRead d = .ok t := by
      split at ht
      · exact ht
      · cases ht
    obtain ⟨hn,-,hes⟩ := hs.gptRead ht
    split
    · exact hs
    · rename_i slot e he
      obtain ⟨h₁,h₂,h₃,h₄⟩ := newEntry_spec hn (hes ▸ hs.entries) he
      exact hs.replace ht ⟨fun _ => ⟨h₁,h₂,h₃⟩,fun _ => h₄⟩

theorem Sound.del : Sound n (gptDelPartition index io d).2 := by
  unfold gptDelPartition
  split
  · exact hs
  · split
    · exact hs
    · rename_i t ht
      have ht : Gpt.gptRead d = .ok t := by
        split at ht
        · exact ht
        · cases ht
      split
      · exact hs
      · exact hs.replace ht fresh_empty

theorem Sound.step (c : Call × Io) : Sound n (step n.sectors d c) := by
  obtain ⟨c,io⟩ := c
  cases c with
  | init => exact hs.init
  | add g size name seed => exact hs.add
  | del index => exact hs.del

theorem Sound.run (cs : List (Call × Io)) : Sound n (cs.foldl (Gpt.step n.sectors) d) := by
  induction cs generalizing d with
  | nil => exact hs
  | cons c cs ih => exact ih (hs.step c)

end

theorem readable_init : Readable (initTable n.sectors).stamped.header := by
  refine ⟨rfl,rfl,.refl,?_⟩
  change (n.sectors - 1).toNat + 1 ≠ _
  have := n.sectors.toNat_lt
  have h1 : (1 : UInt64).toNat = 1 := rfl
  rw [toNat_sub (by decide),h1]
  omega

theorem readable_write (ht : t.totalSectors = n.sectors)
    (hws : ∀ w ∈ ws, w ∈ writeFullTable t ∨ w.1 = 0) (hr : Readable (readHeader (d headerLba)))
    (hr' : Readable t.header) : Readable (readHeader ((commit io ws d).2 headerLba)) := by
  rw [commit]
  rcases readHeader_mix (d := d) io.writes ht hws with h | h
  · rw [h]
    exact hr
  · rw [h]
    exact hr'

theorem Sound.readable_step (hs : Sound n d) (hr : Readable (readHeader (d headerLba)))
    (c : Call × Io) : Readable (readHeader (Gpt.step n.sectors d c headerLba)) := by
  obtain ⟨c,io⟩ := c
  have hreplace : ∀ {t : GptTable} (slot : Nat) (e : GptEntry), Gpt.gptRead d = .ok t →
      Readable (readHeader ((commit io (writeFullTable (t.setEntry slot e).stamped) d).2
        headerLba)) := by
    intro t slot e h
    obtain ⟨hn,-,-⟩ := hs.gptRead h
    have hh : Readable t.header := by
      rw [(readable_of_gptRead h).2]
      exact hr
    exact readable_write (t := (t.setEntry slot e).stamped) hn (fun w hw => .inl hw) hr
      ⟨hh.signature,hh.size,hh.number,hh.alternate⟩
  cases c with
  | init =>
    refine readable_write (t := (initTable n.sectors).stamped) rfl (fun w hw => ?_) hr readable_init
    rcases mem_cons.1 hw with rfl | hw
    · exact .inr rfl
    · exact .inl hw
  | add g size name seed =>
    simp only [Gpt.step,gptAddPartition]
    split
    · exact hr
    · rename_i t ht
      split
      · exact hr
      · split at ht
        · exact hreplace _ _ ht
        · cases ht
  | del index =>
    simp only [Gpt.step,gptDelPartition]
    split
    · exact hr
    · split
      · exact hr
      · rename_i t ht
        split
        · exact hr
        · split at ht
          · exact hreplace _ _ ht
          · cases ht

theorem Sound.readable_run (hs : Sound n d) (hr : Readable (readHeader (d headerLba)))
    (cs : List (Call × Io)) :
    Readable (readHeader (cs.foldl (Gpt.step n.sectors) d headerLba)) := by
  induction cs generalizing d with
  | nil => exact hr
  | cons c cs ih => exact ih (hs.step c) (hs.readable_step hr c)

end Steps

/-- A disk never partitioned: no signature and no entry in use. -/
def Blank (d : Disk) : Prop :=
  (readHeader (d headerLba)).signature ≠ signature ∧
    ∀ i < maxEntries, (readEntries d i).isUsed = false

variable {n : DiskSize} {d : Disk}

theorem Blank.sound (h : Blank d) : Sound n d :=
  have hu : ∀ i < maxEntries, ¬ (readEntries d i).isUsed = true := fun i hi hu =>
    Bool.false_ne_true ((h.2 i hi).symm.trans hu)
  ⟨fun hs => absurd hs h.1,⟨fun i hi hi' => absurd hi' (hu i hi),
    fun i hi _ _ _ hi' => absurd hi' (hu i hi)⟩⟩

section

variable (h : (gptInit n.sectors io d).1 = .ok ())
include h

theorem written_of_init :
    readHeader ((gptInit n.sectors io d).2 headerLba) = (initTable n.sectors).stamped.header ∧
      ∀ i < maxEntries, readEntries (gptInit n.sectors io d).2 i = GptEntry.empty := by
  have hn : (initTable n.sectors).stamped.totalSectors = n.sectors := rfl
  have he : (initTable n.sectors).stamped.entries = fun _ => GptEntry.empty := rfl
  unfold gptInit commit at h ⊢
  generalize (initTable n.sectors).stamped = t at *
  have hlen : ((0,protectiveMbr n.sectors) :: writeFullTable t).length ≤ io.writes := by
    by_contra hc
    rw [if_neg hc] at h
    cases h
  dsimp only
  rw [take_of_length_le hlen]
  have hfirst : ∀ {a : Nat} {x : Bytes}, a ≠ 0 → (∀ w ∈ writeFullTable t, w.1 = a → w.2 = x) →
      ∀ w ∈ (0,protectiveMbr n.sectors) :: writeFullTable t, w.1 = a → w.2 = x := by
    intro a x ha hw w hm hwa
    rcases mem_cons.1 hm with rfl | hm
    · exact absurd hwa.symm ha
    · exact hw w hm hwa
  refine ⟨?_,fun i hi => ?_⟩
  · rw [applyWrites_of_mem (mem_cons_of_mem _ (header_mem t))
      (hfirst (by decide) (write_of_mem hn (header_mem t))),readHeader_headerToBuf]
  · have hc : i / 4 < 32 := by unfold maxEntries at hi; omega
    rw [readEntries_of_sector (applyWrites_of_mem (mem_cons_of_mem _ (entries_mem t hc))
      (hfirst (by unfold entriesLba; omega) (write_of_mem hn (entries_mem t hc)))),he]

theorem sound_of_init : Sound n (gptInit n.sectors io d).2 := by
  obtain ⟨hh,he⟩ := written_of_init h
  refine ⟨fun _ => by rw [hh]; rfl,?_⟩
  exact apart_empty.mix apart_empty (fun _ _ _ _ _ hu => absurd hu (by decide))
    fun i hi => .inl (he i hi)

theorem gptRead_of_init (cs : List (Call × Io)) :
    ∃ t, gptRead (cs.foldl (step n.sectors) (gptInit n.sectors io d).2) = .ok t := by
  have hr : Readable (readHeader ((gptInit n.sectors io d).2 headerLba)) := by
    rw [(written_of_init h).1]
    exact readable_init
  exact ⟨_,gptRead_eq ((sound_of_init h).readable_run hr cs)⟩

end

section Written

variable {n : DiskSize} {d : Disk} {t : GptTable} {b : Bytes}

theorem bytes_of_holds (h : Holds b 0 bs) : (List.range bs.length).map b = bs := by
  apply ext_getElem (by simp)
  intro i h1 h2
  simpa using h i h2

theorem crcTable_eq (i : UInt32) : (crcTable i).toBitVec =
    reflectedShifts (0xEDB88320#32) 8 i.toBitVec := by
  have hstep : ∀ c : UInt32,
      (if c &&& 1 ≠ 0 then (0xEDB88320 : UInt32) ^^^ (c >>> 1) else c >>> 1).toBitVec =
        reflectedShift (0xEDB88320#32) c.toBitVec := by
    intro c
    have hlow : c &&& 1 ≠ 0 ↔ c.toBitVec.getLsbD 0 = true := by
      rw [Ne,← UInt32.toBitVec_inj,UInt32.toBitVec_and]
      change ¬(c.toBitVec &&& 1#32 = 0#32) ↔ _
      rw [BitVec.and_one_eq_setWidth_ofBool_getLsbD]
      cases c.toBitVec.getLsbD 0 <;> decide
    rw [reflectedShift]
    split <;> rename_i h
    · rw [if_pos (hlow.mp h)]
      rfl
    · rw [if_neg (fun hc => h (hlow.mpr hc))]
      rfl
  simp only [crcTable,List.range_succ,List.range_zero,List.foldl_append,List.foldl_cons,
    List.foldl_nil,List.nil_append,reflectedShifts,hstep]

theorem crc_step (c : UInt32) (b : UInt8) :
    (crcTable ((c ^^^ b.toUInt32) &&& 0xFF) ^^^ (c >>> 8)).toBitVec =
      reflectedByte (0xEDB88320#32) c.toBitVec b := by
  have hmask : ∀ i, (0xFF#32).getLsbD i = decide (i < 8 ∧ i < 32) := by
    intro i
    by_cases hi : i < 32
    · have : ∀ i < 32, (0xFF#32).getLsbD i = decide (i < 8 ∧ i < 32) := by decide
      exact this i hi
    · rw [BitVec.getLsbD_of_ge _ _ (by omega)]
      simp [hi]
  have hhigh : b.toBitVec.setWidth 32 >>> 8 = 0#32 := by
    apply BitVec.eq_of_getLsbD_eq
    intro i hi
    simp
  rw [reflectedByte,reflectedShifts_table 0xFF#32 hmask,BitVec.ushiftRight_xor_distrib,hhigh,
    BitVec.xor_zero,UInt32.toBitVec_xor,crcTable_eq]
  rfl

/-- The table of the code makes the CRC-32 of IEEE 802.3. -/
theorem crc32_eq (bs : List UInt8) : crc32 bs = ieeeCrc32 bs := by
  have hbytes : ∀ c : UInt32, (crcBytes c bs).toBitVec =
      bs.foldl (reflectedByte (0xEDB88320#32)) c.toBitVec := by
    intro c
    unfold crcBytes
    induction bs generalizing c with
    | nil => rfl
    | cons b bs ih => rw [List.foldl_cons,List.foldl_cons,ih,crc_step]
  have hrev : (0x04C11DB7#32).reverse = 0xEDB88320#32 := by decide +kernel
  apply UInt32.toBitVec_inj.mp
  rw [crc32,UInt32.toBitVec_not,hbytes,ieeeCrc32,crcOf_eq (by decide)]
  change _ = ~~~bs.foldl (reflectedByte (0x04C11DB7#32).reverse) _
  rw [hrev]
  rfl

example : ieeeCrc32 [0x31,0x32,0x33,0x34,0x35,0x36,0x37,0x38,0x39] = 0xCBF43926 := by decide +kernel

/-- The CRC-32 of the header in a sector, with its own field taken as 0. -/
def headerSum (b : Bytes) : UInt32 :=
  ieeeCrc32 ((List.range headerSize).map (put b 16 (le32Bytes 0)))

/-- The bytes of the entries from a sector on. -/
def entryArray (d : Disk) (lba : Nat) : List UInt8 :=
  (List.range 32).flatMap fun k => (List.range 512).map (d (lba + k))

theorem length_headerBytes (h : GptHeader) : (headerBytes h).length = headerSize := by
  simp [headerBytes,headerSize]

theorem holds_unchecked (h : GptHeader) :
    Holds (put (headerToBuf h) 16 (le32Bytes 0)) 0 (headerBytes { h with headerCrc32 := 0 }) := by
  have hb : Holds (headerToBuf h) 0 (headerBytes h) := holds_sector _
  rw [headerBytes,holds_append,holds_append,holds_append,holds_append] at hb ⊢
  simp only [length_le64Bytes,length_le32Bytes] at hb ⊢
  obtain ⟨hsig,hrev,hsize,-,hrest⟩ := hb
  exact ⟨hsig.put (.inl (by simp)),hrev.put (.inl (by simp)),hsize.put (.inl (by simp)),holds_put,
    hrest.put (.inr (by simp))⟩

theorem headerSum_sealed (h : GptHeader) :
    headerSum (headerToBuf h.sealed) = h.sealed.headerCrc32 := by
  rw [headerSum,← length_headerBytes { h.sealed with headerCrc32 := 0 },
    bytes_of_holds (holds_unchecked h.sealed),← crc32_eq]
  rfl

theorem flatMap_range_four (f : Nat → List UInt8) (k : Nat) :
    ((List.range k).flatMap fun c => (List.range 4).flatMap fun j => f (c * 4 + j)) =
      (List.range (k * 4)).flatMap f := by
  induction k with
  | zero => rfl
  | succ k ih =>
    rw [range_succ (n := k),flatMap_append,ih,Nat.succ_mul]
    simp [range_succ]

theorem entryArray_eq
    (h : ∀ c < 32, d (lba + c) = entrySector es c) :
    ieeeCrc32 (entryArray d lba) = entriesCrc es := by
  have hsec : ∀ c ∈ List.range 32, (List.range 512).map (d (lba + c)) =
      (List.range 4).flatMap fun j => entryToBytes (es (c * 4 + j)) := by
    intro c hc
    have hlen : ((List.range 4).flatMap fun j => entryToBytes (es (c * 4 + j))).length = 512 := by
      simp [length_flatMap,length_entryToBytes,entrySize]
    rw [h c (mem_range.mp hc),← hlen]
    exact bytes_of_holds (holds_sector _)
  rw [← crc32_eq,entryArray,entriesCrc,flatMap_congr hsec]
  exact congrArg crc32 (flatMap_range_four (fun i => entryToBytes (es i)) 32)

/-- The checksums of a header are the CRC-32 of the bytes on the disk. -/
def Summed (d : Disk) (lba : Nat) : Prop :=
  (readHeader (d lba)).headerCrc32 = headerSum (d lba) ∧
    (readHeader (d lba)).partitionEntryArrayCrc32 = ieeeCrc32 (entryArray d entriesLba)

end Written

/-- The partitions of a table keep apart from each other and from every sector the table
itself is written to. -/
structure PartitionsOk (n : DiskSize) (t : GptTable) : Prop where
  total : t.totalSectors = n.sectors
  usable : ∀ i < maxEntries, (t.entries i).isUsed = true →
    firstUsable ≤ (t.entries i).startLba ∧ (t.entries i).startLba ≤ (t.entries i).endLba ∧
      (t.entries i).endLba ≤ t.lastUsableLba
  disjoint : ∀ i < maxEntries, ∀ j < maxEntries, i ≠ j → (t.entries i).isUsed = true →
    (t.entries j).isUsed = true →
      (t.entries i).endLba < (t.entries j).startLba ∨ (t.entries j).endLba < (t.entries i).startLba
  clear : ∀ i < maxEntries, (t.entries i).isUsed = true → ∀ w ∈ writeFullTable t,
    w.1 < (t.entries i).startLba.toNat ∨ (t.entries i).endLba.toNat < w.1

theorem partitionsOk_of_apart {t : GptTable} (hn : t.totalSectors = n.sectors)
    (h : Apart n t.entries) : PartitionsOk n t := by
  have hlarge := n.large
  have h₁ := toNat_sub (n := n) (k := 1) (by decide)
  have h₃₃ := toNat_sub (n := n) (k := 33) (by decide)
  have h₃₄ := toNat_sub (n := n) (k := 34) (by decide)
  have hfirst : firstUsable.toNat = 34 := rfl
  simp only [UInt64.reduceToNat] at h₁ h₃₃ h₃₄
  refine ⟨hn,fun i hi hu => ?_,fun i hi j hj hij hu hv => ?_,fun i hi hu w hw => ?_⟩
  · obtain ⟨ha,hb,hc⟩ := h.within i hi hu
    simp only [UInt64.le_iff_toNat_le,GptTable.lastUsableLba,hn]
    omega
  · simpa only [UInt64.lt_iff_toNat_lt] using h.disjoint i hi j hj hij hu hv
  · obtain ⟨ha,hb,hc⟩ := h.within i hi hu
    simp only [writeFullTable,writeEntries,cons_append,mem_cons,mem_append,
      List.mem_map,mem_range,hn] at hw
    rcases hw with rfl | ⟨c,hc,rfl⟩ | rfl | ⟨c,hc,rfl⟩
    · dsimp only [headerLba]
      omega
    · dsimp only [entriesLba]
      omega
    · omega
    · omega

/-- From a disk never partitioned, or that a successful `gptInit` has just prepared
whatever was on it, every sequence of calls, with device errors at any point. -/
theorem partitions_ok (n : DiskSize) (d : Disk)
    (hd : Blank d ∨ ∃ d₀ io, (gptInit n.sectors io d₀).1 = .ok () ∧ d = (gptInit n.sectors io d₀).2)
    (cs : List (Call × Io)) (t : GptTable)
    (ht : gptRead (cs.foldl (step n.sectors) d) = .ok t) : PartitionsOk n t := by
  have hs : Sound n d := by
    rcases hd with h | ⟨d₀,io,h,rfl⟩
    · exact h.sound
    · exact sound_of_init h
  have hr := hs.run cs
  obtain ⟨hn,-,he⟩ := hr.gptRead ht
  exact partitionsOk_of_apart hn (he ▸ hr.entries)

/-- A disk of 68 sectors with one usable sector, added, deleted and added again; the
second write of the deletion fails. -/
theorem partitions_ok_smallest :
    ∃ t, gptRead ([(Call.add (Vector.replicate 16 1) 1 ['a'] 7,⟨true,100⟩),(.del 0,⟨true,1⟩),
        (.add (Vector.replicate 16 2) 1 ['b'] 8,⟨true,100⟩)].foldl (step 68)
          (gptInit 68 ⟨true,100⟩ fun _ => zeroBytes).2) = .ok t ∧ PartitionsOk ⟨68,by decide⟩ t := by
  have hi : (gptInit 68 ⟨true,100⟩ fun _ => zeroBytes).1 = .ok () := rfl
  obtain ⟨t,ht⟩ := gptRead_of_init (n := ⟨68,by decide⟩) hi
    [(Call.add (Vector.replicate 16 1) 1 ['a'] 7,⟨true,100⟩),(.del 0,⟨true,1⟩),
      (.add (Vector.replicate 16 2) 1 ['b'] 8,⟨true,100⟩)]
  exact ⟨t,ht,partitions_ok ⟨68,by decide⟩ _ (.inr ⟨_,_,hi,rfl⟩) _ t ht⟩

theorem newEntry_free (h : newEntry t g size name seed = .ok (slot,e)) :
    (t.entries slot).isUsed = false := by
  unfold newEntry at h
  split at h
  · cases h
  · rename_i hf
    dsimp only at h
    repeat' split at h
    all_goals cases h
    simpa using find?_some hf

section

variable (hs : Sound n d) (hi : i < maxEntries)
include hs hi

theorem entry_of_replace (h : gptRead d = .ok t) (hne : i ≠ slot) :
    readEntries (commit io (writeFullTable (t.setEntry slot e).stamped) d).2 i = readEntries d i := by
  obtain ⟨hn,-,hes⟩ := hs.gptRead h
  rcases readEntries_mix (t := (t.setEntry slot e).stamped) io.writes hn (fun _ => .inl) hi
    with hr | hr
  · exact hr
  · exact hr.trans ((update_of_ne hne _ _).trans (congrFun hes i))

theorem entry_of_step (hu : (readEntries d i).isUsed = true) (c : Call × Io)
    (hc : c.1 ≠ .init ∧ c.1 ≠ .del i) : readEntries (step n.sectors d c) i = readEntries d i := by
  obtain ⟨c,io⟩ := c
  have hread : ∀ {t}, (if io.reads then gptRead d else .error .io) = .ok t → gptRead d = .ok t := by
    intro t h
    split at h
    · exact h
    · cases h
  cases c with
  | init => exact absurd rfl hc.1
  | add =>
    simp only [step,gptAddPartition]
    split
    · rfl
    rename_i t ht
    split
    · rfl
    -- a new partition takes a slot that is not in use
    rename_i he
    refine entry_of_replace hs hi (hread ht) ?_
    rintro rfl
    rw [← (hs.gptRead (hread ht)).2.2,newEntry_free he] at hu
    cases hu
  | del =>
    simp only [step,gptDelPartition]
    split
    · rfl
    split
    · rfl
    rename_i t ht
    split
    · rfl
    · exact entry_of_replace hs hi (hread ht) fun h => hc.2 (h ▸ rfl)

/-- Whatever calls fail, and at whatever point, a partition that none of them deletes is
still there. -/
theorem partition_kept (hu : (readEntries d i).isUsed = true) (cs : List (Call × Io))
    (hc : ∀ c ∈ cs, c.1 ≠ .init ∧ c.1 ≠ .del i) :
    readEntries (cs.foldl (step n.sectors) d) i = readEntries d i := by
  induction cs generalizing d with
  | nil => rfl
  | cons c cs ih =>
    have hd := entry_of_step hs hi hu c (hc c mem_cons_self)
    exact (ih (hs.step c) (hd ▸ hu) fun x hx => hc x (mem_cons_of_mem _ hx)).trans hd

end

/-- A second partition is added, but only one sector is written. -/
theorem partition_kept_first :
    let d := [(Call.init,⟨true,2⟩),(.add (guidPseudo 1) 1 [] 7,⟨true,2⟩)].foldl
      (step 100) fun _ => zeroBytes
    readEntries ([(.add (guidPseudo 2) 1 [] 8,⟨true,1⟩)].foldl (step 100) d) 0 =
      readEntries d 0 := by
  have hb : Blank fun _ => zeroBytes := ⟨by decide +kernel,fun _ _ => by
    simp only [readEntries,bytesToEntry,GptEntry.isUsed,zeroBytes]
    decide +kernel⟩
  intro d
  exact partition_kept (n := ⟨100,by decide⟩) (hb.sound.run _) (by decide) (by decide +kernel) _
    (by simp)

end Miku.Fs.Gpt
