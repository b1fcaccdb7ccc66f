import Miku.Lib.Bytes

namespace Miku.Ext
open Lib

def crcBit (crc : UInt32) : UInt32 :=
  if crc &&& 1 != 0 then (crc >>> 1) ^^^ 0x82F63B78 else crc >>> 1

/-- An entry of `TABLE`, as `generate_table` computes it. -/
def crcTable (i : UInt32) : UInt32 := Nat.repeat crcBit 8 i

def crcByte (crc : UInt32) (b : UInt8) : UInt32 :=
  (crc >>> 8) ^^^ crcTable ((crc ^^^ b.toUInt32) &&& 0xFF)

def crc32c (initial : UInt32) (data : List UInt8) : UInt32 := ~~~data.foldl crcByte (~~~initial)

def ext4SuperblockCsum (uuid sbData : List UInt8) : UInt32 :=
  crc32c (crc32c 0xFFFFFFFF uuid) sbData

/-- The accessors that read bytes of the image. The others (`block_size`,
`group_desc_size`, `blocks_count_full`, the `has_` tests) are computed from these. -/
inductive Accessor
  | inodesCount
  | blocksCount
  | rBlocksCount
  | freeBlocksCount
  | freeInodesCount
  | firstDataBlock
  | logBlockSize
  | logFragSize
  | blocksPerGroup
  | fragsPerGroup
  | inodesPerGroup
  | mtime
  | wtime
  | mntCount
  | maxMntCount
  | magic
  | state
  | errors
  | minorRevLevel
  | lastcheck
  | checkinterval
  | creatorOs
  | revLevel
  | defResuid
  | defResgid
  | firstIno
  | inodeSizeRaw
  | blockGroupNr
  | featureCompat
  | featureIncompat
  | featureRoCompat
  | uuid
  | volumeName
  | journalUuid
  | journalInum
  | journalDev
  | lastOrphan
  | hashSeed (idx : Fin 4)
  | defHashVersion
  | descSize
  | defaultMountOpts
  | firstMetaBg
  | mkfsTime
  | minExtraIsize
  | wantExtraIsize
  | flagsSb
  | raidStride
  | mmpInterval
  | mmpBlock
  | raidStripeWidth
  | logGroupsPerFlex
  | blocksCountHi
  | rBlocksCountHi
  | freeBlocksCountHi

/-- Where an accessor reads, and how many bytes. -/
def Accessor.place : Accessor → Nat × Nat
  | .inodesCount => (0,4)
  | .blocksCount => (4,4)
  | .rBlocksCount => (8,4)
  | .freeBlocksCount => (12,4)
  | .freeInodesCount => (16,4)
  | .firstDataBlock => (20,4)
  | .logBlockSize => (24,4)
  | .logFragSize => (28,4)
  | .blocksPerGroup => (32,4)
  | .fragsPerGroup => (36,4)
  | .inodesPerGroup => (40,4)
  | .mtime => (44,4)
  | .wtime => (48,4)
  | .mntCount => (52,2)
  | .maxMntCount => (54,2)
  | .magic => (56,2)
  | .state => (58,2)
  | .errors => (60,2)
  | .minorRevLevel => (62,2)
  | .lastcheck => (64,4)
  | .checkinterval => (68,4)
  | .creatorOs => (72,4)
  | .revLevel => (76,4)
  | .defResuid => (80,2)
  | .defResgid => (82,2)
  | .firstIno => (84,4)
  | .inodeSizeRaw => (88,2)
  | .blockGroupNr => (90,2)
  | .featureCompat => (92,4)
  | .featureIncompat => (96,4)
  | .featureRoCompat => (100,4)
  | .uuid => (104,16)
  | .volumeName => (120,16)
  | .journalUuid => (208,16)
  | .journalInum => (224,4)
  | .journalDev => (228,4)
  | .lastOrphan => (232,4)
  | .hashSeed idx => (236 + idx.val * 4,4)
  | .defHashVersion => (252,1)
  | .descSize => (254,2)
  | .defaultMountOpts => (256,4)
  | .firstMetaBg => (260,4)
  | .mkfsTime => (264,4)
  | .minExtraIsize => (276,2)
  | .wantExtraIsize => (278,2)
  | .flagsSb => (280,4)
  | .raidStride => (284,2)
  | .mmpInterval => (286,2)
  | .mmpBlock => (288,8)
  | .raidStripeWidth => (296,4)
  | .logGroupsPerFlex => (300,1)
  | .blocksCountHi => (336,4)
  | .rBlocksCountHi => (340,4)
  | .freeBlocksCountHi => (344,4)

/-- Byte `i` of the image is one that the accessor reads. -/
def Accessor.Reads (a : Accessor) (i : Nat) : Prop := a.place.1 ≤ i ∧ i < a.place.1 + a.place.2

/-- An image of 1024 bytes. -/
structure Superblock where
  data : Bytes

namespace Superblock
variable (sb : Superblock)

def readU16 (offset : Nat) : Nat := le16 sb.data offset

def readU32 (offset : Nat) : Nat := le32 sb.data offset

def writeU32 (offset val : Nat) : Superblock := ⟨put sb.data offset (le32Bytes val)⟩

/-- `data[start..start + n]`. -/
def slice (start n : Nat) : List UInt8 := (List.range n).map fun i => sb.data (start + i)

/-- The bytes an accessor computes its value from. -/
def field (a : Accessor) : List UInt8 := sb.slice a.place.1 a.place.2

def descSize : Nat := sb.readU16 254

def hasMetadataCsum : Bool := sb.readU32 100 / 0x400 % 2 == 1

def has64bit : Bool := sb.readU32 96 / 0x80 % 2 == 1

/-- A copy of the image in which the four bytes from `0xFE` on are zero. -/
def sbCopy : Superblock := sb.writeU32 0xFE 0

def computeSuperblockCsum : UInt32 :=
  ext4SuperblockCsum (sb.slice 104 16) (sb.sbCopy.slice 0 1024)

def verifySuperblockCsum : Bool :=
  !sb.hasMetadataCsum || sb.computeSuperblockCsum.toNat == sb.readU32 0xFE

def updateSuperblockCsum : Superblock :=
  if sb.hasMetadataCsum then sb.writeU32 0xFE sb.computeSuperblockCsum.toNat else sb

end Superblock

end Miku.Ext
