import Miku.Ext.Superblock

namespace Miku.Ext
open Lib

namespace Superblock
variable {sb : Superblock}

theorem slice_congr {sb' : Superblock}
    (h : ∀ i, start ≤ i → i < start + n → sb'.data i = sb.data i) :
    sb'.slice start n = sb.slice start n := by
  apply List.map_congr_left
  intro i hi
  exact h _ (by omega) (by have := List.mem_range.1 hi; omega)

theorem writeU32_other (h : i < offset ∨ offset + 4 ≤ i) :
    (sb.writeU32 offset csum).data i = sb.data i :=
  put_other (by simpa using h)

@[simp] theorem sbCopy_writeU32 : (sb.writeU32 0xFE csum).sbCopy = sb.sbCopy := by
  have h : put (put sb.data 0xFE (le32Bytes csum)) 0xFE (le32Bytes 0) =
      put sb.data 0xFE (le32Bytes 0) := by
    funext i
    by_cases hi : 0xFE ≤ i ∧ i < 0xFE + 4
    · obtain ⟨k,rfl⟩ := Nat.exists_eq_add_of_le hi.1
      have hk : k < (le32Bytes 0).length := by simp; omega
      rw [put_at k hk]
      exact (put_at k hk).symm
    · rw [put_other (by simp; omega),put_other (by simp; omega),put_other (by simp; omega)]
  simp only [sbCopy,writeU32,h]

theorem computeSuperblockCsum_writeU32 :
    (sb.writeU32 0xFE csum).computeSuperblockCsum = sb.computeSuperblockCsum := by
  have huuid : (sb.writeU32 0xFE csum).slice 104 16 = sb.slice 104 16 :=
    slice_congr fun i _ hi => writeU32_other (by omega)
  simp only [computeSuperblockCsum,huuid,sbCopy_writeU32]

theorem readU32_writeU32 (h : csum < 4294967296) : (sb.writeU32 0xFE csum).readU32 0xFE = csum := by
  simp only [readU32,writeU32,le32_put_self,Nat.mod_eq_of_lt h]

theorem verify_update : sb.updateSuperblockCsum.verifySuperblockCsum = true := by
  unfold updateSuperblockCsum
  split
  · rw [verifySuperblockCsum,computeSuperblockCsum_writeU32,
      readU32_writeU32 sb.computeSuperblockCsum.toNat_lt]
    simp
  · simp_all [verifySuperblockCsum]

theorem update_other (h : i < 0xFE ∨ 0xFE + 4 ≤ i) :
    sb.updateSuperblockCsum.data i = sb.data i := by
  unfold updateSuperblockCsum
  split
  · exact writeU32_other h
  · rfl

theorem update_of_verified (h : sb.verifySuperblockCsum = true) (i : Nat) :
    sb.updateSuperblockCsum.data i = sb.data i := by
  unfold updateSuperblockCsum
  split
  · rename_i hm
    rw [verifySuperblockCsum,hm] at h
    have hc : sb.computeSuperblockCsum.toNat = sb.readU32 0xFE := by simpa using h
    by_cases hi : 0xFE ≤ i ∧ i < 0xFE + 4
    · obtain ⟨k,rfl⟩ := Nat.exists_eq_add_of_le hi.1
      have hk : k < (le32Bytes (sb.readU32 0xFE)).length := by simp; omega
      rw [hc]
      exact (put_at k hk).trans (holds_le32 k hk).symm
    · exact writeU32_other (by omega)
  · rfl

/-- An image whose four bytes stay as they are is one accepted before. -/
theorem verified_of_update (h : ∀ i, 0xFE ≤ i → i < 0xFE + 4 →
    sb.updateSuperblockCsum.data i = sb.data i) : sb.verifySuperblockCsum = true := by
  have hread : sb.readU32 0xFE = sb.updateSuperblockCsum.readU32 0xFE :=
    le32_congr fun k hk => (h _ (by omega) (by omega)).symm
  rw [verifySuperblockCsum,hread,updateSuperblockCsum]
  cases hm : sb.hasMetadataCsum with
  | false => rfl
  | true => simp [readU32_writeU32 sb.computeSuperblockCsum.toNat_lt]

end Superblock

open Superblock

theorem Accessor.place_apart {a : Accessor} (hd : a ≠ .descSize) (hm : a ≠ .defaultMountOpts) :
    a.place.1 + a.place.2 ≤ 0xFE ∨ 0xFE + 4 ≤ a.place.1 := by
  cases a with
  | hashSeed idx => exact .inl (by simp only [Accessor.place]; omega)
  | descSize => exact absurd rfl hd
  | defaultMountOpts => exact absurd rfl hm
  | _ => decide

/-- The updated image is always accepted, and every accessor but two reads what it read
before. The checksum is written over the descriptor size and the first half of the default
mount options: they stay exactly when the image was accepted before, and then nothing
changes. -/
theorem update_superblock_csum_frame (sb : Superblock) :
    sb.updateSuperblockCsum.verifySuperblockCsum = true ∧
      (∀ a, a ≠ .descSize → a ≠ .defaultMountOpts → sb.updateSuperblockCsum.field a = sb.field a) ∧
      ((∀ (a : Accessor) (i : Nat), a.Reads i →
        sb.updateSuperblockCsum.data i = sb.data i) ↔ sb.verifySuperblockCsum = true) := by
  refine ⟨verify_update,fun a hd hm => ?_,fun h => verified_of_update fun i h0 h1 => ?_,
    fun h a i _ => update_of_verified h i⟩
  · have hp := Accessor.place_apart hd hm
    exact slice_congr fun i h0 h1 => update_other (by omega)
  · -- the two accessors read all of the four bytes
    by_cases hi : i < 256
    · exact h .descSize i ⟨h0,hi⟩
    · exact h .defaultMountOpts i ⟨by simp only [Accessor.place]; omega,
        by simp only [Accessor.place]; omega⟩

/-- A volume with metadata checksums and descriptors of 64 bytes. -/
def csumImage : Superblock where
  data i := if i = 254 then 64 else if i = 101 then 4 else if i = 96 then 0x80 else 0

theorem csumImage_csum : csumImage.computeSuperblockCsum = 2892690125 := by
  decide +kernel

/-- After the update the descriptors of this volume have another size. -/
theorem descSize_overwritten :
    csumImage.hasMetadataCsum = true ∧ csumImage.has64bit = true ∧ csumImage.descSize = 64 ∧
      csumImage.updateSuperblockCsum.descSize = 62157 := by
  refine ⟨by decide,by decide,by decide,?_⟩
  rw [updateSuperblockCsum,if_pos (by decide),csumImage_csum]
  decide

end Miku.Ext
