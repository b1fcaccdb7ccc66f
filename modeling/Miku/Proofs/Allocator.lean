import Miku.Ext.Structs

namespace Miku.Ext
open Lib Function

namespace Volume

variable {v w : Volume} {b c : Nat}

@[simp] theorem blocks_setBlock_self : (v.setBlock b d).blocks b = d := update_self ..

theorem blocks_setBlock_of_ne (h : n ≠ b) : (v.setBlock b d).blocks n = v.blocks n :=
  update_of_ne h ..

@[simp] theorem isValidBlock_setBlock : (v.setBlock b d).isValidBlock n = v.isValidBlock n := rfl

theorem readBlock_of_valid (h : v.isValidBlock b = true) : v.readBlock b = .ok (v.blocks b) := if_pos h

/-- The bitmaps have `b` free. -/
def Free (v : Volume) (b : Nat) : Prop :=
  ∃ g k, g < v.groupCount ∧ k < v.blocksPerGroup ∧ (v.groups g).blockUsed k = false ∧
    b = g * v.blocksPerGroup + k + v.firstDataBlock

/-- The geometry of a volume; only blocks of it can be free. -/
structure Sane (v : Volume) : Prop where
  blockSize : 1024 ≤ v.blockSize ∧ v.blockSize ≤ 4096
  blocksCount : v.blocksCount < 4294967296
  free : ∀ b, v.Free b → 0 < b ∧ b < v.blocksCount

theorem Sane.valid (hv : v.Sane) (h : v.Free b) : v.isValidBlock b = true := by
  obtain ⟨h0,hb⟩ := hv.free b h
  simp [isValidBlock,hb]
  omega

theorem firstClear_spec {used : Nat → Bool} (h : firstClear used s n = some k) :
    s ≤ k ∧ k < s + n ∧ used k = false := by
  have hm := List.mem_range'_1.mp (List.mem_of_find?_eq_some h)
  exact ⟨hm.1,hm.2,by simpa using List.find?_some h⟩

theorem findInGroup_spec (h : v.findInGroup g = some k) :
    k < v.blocksPerGroup ∧ (v.groups g).blockUsed k = false := by
  simp only [findInGroup,Option.or_eq_some_iff] at h
  rcases h with h | ⟨-,h⟩
  · obtain ⟨-,hk,hu⟩ := firstClear_spec h
    exact ⟨by omega,hu⟩
  · obtain ⟨-,hk,hu⟩ := firstClear_spec h
    exact ⟨by omega,hu⟩

theorem findBlock_spec (h : v.findBlock p = some (g,k)) :
    g < v.groupCount ∧ g < 32 ∧ 0 < (v.groups g).freeBlocks ∧ k < v.blocksPerGroup ∧
      (v.groups g).blockUsed k = false := by
  obtain ⟨o,ho,hf⟩ := List.exists_of_findSome?_eq_some h
  have hpos : 0 < v.groupCount := Nat.lt_of_le_of_lt (Nat.zero_le _) (List.mem_range.mp ho)
  simp only at hf
  split at hf
  · cases hf
  · rename_i hg
    simp only [Option.map_eq_some_iff,Prod.mk.injEq] at hf
    obtain ⟨k',hk',rfl,rfl⟩ := hf
    obtain ⟨hlt,hu⟩ := findInGroup_spec hk'
    exact ⟨Nat.mod_lt _ hpos,by omega,by omega,hlt,hu⟩

theorem free_takeBlock (hb : b ≠ g * v.blocksPerGroup + k + v.firstDataBlock) :
    (v.takeBlock g k).Free b ↔ v.Free b := by
  have hother : ∀ g' k', b = g' * v.blocksPerGroup + k' + v.firstDataBlock →
      ((v.takeBlock g k).groups g').blockUsed k' = (v.groups g').blockUsed k' := by
    intro g' k' he
    by_cases hg : g' = g
    · subst hg
      have hk : k' ≠ k := fun h => hb (h ▸ he)
      simp only [takeBlock,setGroup,update_self,update_of_ne hk]
    · simp only [takeBlock,setGroup,update_of_ne hg]
  constructor
  · rintro ⟨g',k',hg,hk,hu,he⟩
    exact ⟨g',k',hg,hk,(hother g' k' he).symm.trans hu,he⟩
  · rintro ⟨g',k',hg,hk,hu,he⟩
    exact ⟨g',k',hg,hk,(hother g' k' he).trans hu,he⟩

theorem not_free_takeBlock (hk : k < v.blocksPerGroup) :
    ¬ (v.takeBlock g k).Free (g * v.blocksPerGroup + k + v.firstDataBlock) := by
  rintro ⟨g',k',-,hk',hu,he⟩
  have hk'' : k' < v.blocksPerGroup := hk'
  have he' : g * v.blocksPerGroup + k + v.firstDataBlock = g' * v.blocksPerGroup + k' + v.firstDataBlock := he
  obtain ⟨rfl,rfl⟩ : g' = g ∧ k' = k := by
    have h1 : (v.blocksPerGroup * g + k) / v.blocksPerGroup =
        (v.blocksPerGroup * g' + k') / v.blocksPerGroup := by
      congr 1
      rw [Nat.mul_comm _ g,Nat.mul_comm _ g']
      omega
    rw [Nat.mul_add_div (by omega),Nat.mul_add_div (by omega),Nat.div_eq_of_lt hk,
      Nat.div_eq_of_lt hk''] at h1
    have hg : g' = g := by omega
    subst hg
    exact ⟨rfl,by omega⟩
  simp [takeBlock,setGroup] at hu

end Volume

open Volume

/-- An allocation takes a free block out of the bitmaps and does nothing else. -/
structure Allocated (v v' : Volume) (b : Nat) : Prop where
  free : v.Free b
  taken : ¬ v'.Free b
  others : ∀ c, c ≠ b → (v'.Free c ↔ v.Free c)
  same : ∃ groups count, v' = { v with groups := groups, freeBlocksCount := count }

theorem allocated_of_ok (h : allocBlock p v = .ok b v') : Allocated v v' b := by
  unfold allocBlock at h
  split at h
  · cases h
  · rename_i g k hf
    obtain ⟨hg,-,-,hk,hu⟩ := findBlock_spec hf
    cases h
    exact ⟨⟨g,k,hg,hk,hu,rfl⟩,not_free_takeBlock hk,fun c hc => free_takeBlock hc,_,_,rfl⟩

namespace Allocated

theorem blocks (h : Allocated v v' b) : v'.blocks = v.blocks := by
  obtain ⟨_,_,rfl⟩ := h.same
  rfl

theorem isValidBlock (h : Allocated v v' b) : v'.isValidBlock n = v.isValidBlock n := by
  obtain ⟨_,_,rfl⟩ := h.same
  rfl

theorem blockSize (h : Allocated v v' b) : v'.blockSize = v.blockSize := by
  obtain ⟨_,_,rfl⟩ := h.same
  rfl

end Allocated

/-- A volume of 65 blocks, of which the last four are free. -/
def smallVolume : Volume where
  blockSize := 1024
  blocksCount := 65
  firstDataBlock := 1
  blocksPerGroup := 64
  inodesPerGroup := 32
  groupCount := 1
  hasDirIndex := false
  hasExtents := true
  freeBlocksCount := 4
  freeInodesCount := 16
  groups := fun _ => ⟨fun k => decide (k < 60),fun k => decide (k < 16),4,16,0⟩
  inodes := fun _ => Inode.zeroed
  blocks := fun _ => zeroBytes

theorem smallVolume_sane : smallVolume.Sane where
  blockSize := by decide
  blocksCount := by decide
  free := by
    rintro b ⟨g,k,hg,hk,hu,rfl⟩
    have hg' : g < 1 := hg
    have hk' : k < 64 := hk
    obtain rfl : g = 0 := by omega
    simp only [smallVolume,decide_eq_false_iff_not] at hu ⊢
    omega

end Miku.Ext
