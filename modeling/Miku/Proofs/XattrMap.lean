import Mathlib.Algebra.Ring.Nat
import Miku.Ext.Xattr
import Miku.Proofs.Allocator

namespace Miku.Ext
open Lib Function List Volume

/-- An entry that comes back as it was put. -/
structure XattrEntry.Valid (e : XattrEntry) : Prop where
  name : e.name.length ≤ 64
  value : e.value.length ≤ 256
  unmarked : e.key ≠ (0,[])

/-- Entry `e` is at `pos`, with its value anywhere in the block. -/
structure PlacedAt (data : Bytes) (bs pos : Nat) (e : XattrEntry) : Prop where
  inside : pos + 16 + e.name.length ≤ bs
  nameLen : data pos = UInt8.ofNat e.name.length
  nameIndex : data (pos + 1) = e.nameIndex
  size : le32 data (pos + 8) = e.value.length
  name : Holds data (pos + 16) e.name
  value : e.value ≠ [] → 0 < le16 data (pos + 2) ∧ le16 data (pos + 2) + e.value.length ≤ bs ∧
    Holds data (le16 data (pos + 2)) e.value

/-- The entries from `pos` on are `es`, and no more. -/
def Laid (data : Bytes) (bs : Nat) : Nat → List XattrEntry → Prop
  | pos, [] => noEntry data bs pos = true
  | pos, e :: es => PlacedAt data bs pos e ∧ Laid data bs (pos + entrySize e.name.length) es

def footprint (es : List XattrEntry) : Nat :=
  (es.map fun e => entrySize e.name.length + alignUp e.value.length).sum

variable {data buf : Bytes} {pos : Nat} {e : XattrEntry} {es : List XattrEntry}
    {key : XattrKey}

theorem le_alignUp (n : Nat) : n ≤ alignUp n := by
  unfold alignUp
  omega

theorem le_entrySize (n : Nat) : 16 + n ≤ entrySize n := le_alignUp _

theorem footprint_cons : footprint (e :: es) =
    entrySize e.name.length + alignUp e.value.length + footprint es := rfl

theorem length_le_footprint : 16 * es.length ≤ footprint es := by
  induction es with
  | nil => exact .refl
  | cons e es ih =>
    have := le_entrySize e.name.length
    rw [footprint_cons,length_cons]
    omega

theorem bytesAt_of_holds (h : Holds data o l) : bytesAt data o l.length = l := by
  refine ext_getElem (by simp [bytesAt]) fun k hk hl => ?_
  simp only [bytesAt,getElem_map,getElem_range]
  exact h k hl

theorem toNat_nameLen (hv : e.Valid) : (UInt8.ofNat e.name.length).toNat = e.name.length := by
  have := hv.name
  rw [UInt8.toNat_ofNat']
  omega

namespace PlacedAt

variable (h : PlacedAt data bs pos e)

include h

theorem toNat_len (hv : e.Valid) : (data pos).toNat = e.name.length := by
  rw [h.nameLen,toNat_nameLen hv]

theorem noEntry (hv : e.Valid) : noEntry data bs pos = false := by
  have hin := h.inside
  have hmark : (data pos == 0 && data (pos + 1) == 0) = false := by
    rw [Bool.and_eq_false_iff]
    by_cases hn : e.name = []
    · refine .inr (beq_eq_false_iff_ne.2 fun h0 => hv.unmarked ?_)
      rw [XattrEntry.key,hn,← h.nameIndex,h0]
    · refine .inl (beq_eq_false_iff_ne.2 fun h0 => hn (length_eq_zero_iff.1 ?_))
      rw [← h.toNat_len hv,h0]
      rfl
  rw [Ext.noEntry,hmark,h.toNat_len hv,decide_eq_false (by omega),decide_eq_false (by omega)]
  rfl

theorem valueAt : valueAt data bs 0 pos = e.value.take 256 := by
  by_cases hne : e.value = []
  · have hsize : le32 data (pos + 8) = 0 := by rw [h.size,hne]; rfl
    rw [Ext.valueAt,if_neg (by omega),hne]
    rfl
  · obtain ⟨hoff,hend,hval⟩ := h.value hne
    have hpos : 0 < e.value.length := length_pos_iff.2 hne
    rw [Ext.valueAt,if_pos (by rw [h.size]; omega),h.size,zero_add]
    have htake : Holds data (le16 data (pos + 2)) (e.value.take 256) := by
      intro k hk
      rw [length_take] at hk
      rw [hval k (by omega),getElem_take]
    have := bytesAt_of_holds htake
    rw [length_take,Nat.min_comm] at this
    exact this

theorem entryAt (hv : e.Valid) : entryAt data bs 0 pos = e := by
  have hname := hv.name
  have hval : e.value.take 256 = e.value := take_of_length_le hv.value
  rw [Ext.entryAt,h.valueAt,hval,h.nameIndex,h.toNat_len hv,Nat.min_eq_left hname,
    bytesAt_of_holds h.name]

theorem isEntryOf (hv : e.Valid) : isEntryOf key data pos = decide (e.key = key) := by
  rw [Bool.eq_iff_iff]
  simp only [Ext.isEntryOf,h.toNat_len hv,h.nameIndex,bytesAt_of_holds h.name,Bool.and_eq_true,
    beq_iff_eq,decide_eq_true_eq,XattrEntry.key,Prod.ext_iff]
  constructor
  · exact fun hk => ⟨hk.1.1,hk.2⟩
  · exact fun hk => ⟨⟨hk.1,congrArg List.length hk.2⟩,hk.2⟩

end PlacedAt

theorem parseXattrEntries_laid (h : Laid data bs pos es) (hv : ∀ e ∈ es, e.Valid)
    (hroom : es.length ≤ room) : parseXattrEntries data bs 0 room pos = es := by
  induction es generalizing pos room with
  | nil =>
    have hend : noEntry data bs pos = true := h
    cases room with
    | zero => rfl
    | succ room => rw [parseXattrEntries,if_pos hend]
  | cons e es ih =>
    cases room with
    | zero => exact absurd hroom (by simp)
    | succ room =>
      have he := hv e mem_cons_self
      rw [parseXattrEntries,h.1.noEntry he,h.1.entryAt he,h.1.toNat_len he,
        ih h.2 (fun e he => hv e (mem_cons_of_mem _ he)) (Nat.le_of_succ_le_succ hroom)]
      rfl

def others (key : XattrKey) (es : List XattrEntry) : List XattrEntry :=
  es.filter fun e => decide (e.key ≠ key)

theorem others_cons : others key (e :: es) =
    if e.key = key then others key es else e :: others key es := by
  rw [others,filter_cons]
  by_cases h : e.key = key
  · rw [if_pos h,if_neg (by simpa using h)]
    rfl
  · rw [if_neg h,if_pos (by simpa using h)]
    rfl

theorem keptEntries_laid (h : Laid data bs pos es) (hv : ∀ e ∈ es, e.Valid)
    (hfuel : es.length < fuel) (hroom : (others key es).length ≤ room) :
    keptEntries data bs key fuel room pos = others key es := by
  induction es generalizing pos room fuel with
  | nil =>
    obtain ⟨fuel,rfl⟩ := Nat.exists_eq_succ_of_ne_zero (Nat.ne_of_gt hfuel)
    have hend : noEntry data bs pos = true := h
    cases room with
    | zero => rfl
    | succ room =>
      rw [keptEntries,if_pos hend]
      rfl
  | cons e es ih =>
    obtain ⟨fuel,rfl⟩ := Nat.exists_eq_succ_of_ne_zero (Nat.ne_of_gt (Nat.zero_lt_of_lt hfuel))
    have he := hv e mem_cons_self
    have hv' : ∀ e ∈ es, e.Valid := fun e he => hv e (mem_cons_of_mem _ he)
    have hfuel' : es.length < fuel := Nat.lt_of_succ_lt_succ hfuel
    cases room with
    | zero => exact (length_eq_zero_iff.1 (Nat.le_zero.1 hroom)).symm
    | succ room =>
      rw [others_cons] at hroom ⊢
      simp only [keptEntries,h.1.noEntry he,h.1.isEntryOf he,h.1.entryAt he,h.1.toNat_len he,
        Bool.false_eq_true,↓reduceIte,decide_eq_true_eq]
      by_cases hk : e.key = key
      · rw [if_pos hk] at hroom ⊢
        rw [if_pos hk]
        exact ih h.2 hv' hfuel' hroom
      · rw [if_neg hk] at hroom ⊢
        rw [if_neg hk,ih h.2 hv' hfuel' (Nat.le_of_succ_le_succ hroom)]

theorem writeEntry_other (h : i < wpos ∨ wpos + entrySize e.name.length ≤ i) :
    writeEntry buf wpos valEnd e i = buf i := by
  have hsize := le_entrySize e.name.length
  have hif : (if e.value = [] then put buf wpos [UInt8.ofNat e.name.length,e.nameIndex]
      else put (put buf wpos [UInt8.ofNat e.name.length,e.nameIndex]) (wpos + 2)
        (le16Bytes valEnd)) i = buf i := by
    split
    · exact put_other (by simp; omega)
    · rw [put_other (by simp; omega),put_other (by simp; omega)]
  simp only [writeEntry]
  rw [put_other (by omega),put_other (by simp; omega),put_other (by simp; omega),
    put_other (by simp; omega),hif]

/-- The head of an entry, after it has been put. -/
structure HeadAt (data : Bytes) (wpos valEnd : Nat) (e : XattrEntry) : Prop where
  start : Holds data wpos [UInt8.ofNat e.name.length,e.nameIndex]
  offset : e.value ≠ [] → Holds data (wpos + 2) (le16Bytes valEnd)
  size : Holds data (wpos + 8) (le32Bytes e.value.length)
  name : Holds data (wpos + 16) e.name

theorem headAt_writeEntry : HeadAt (writeEntry buf wpos valEnd e) wpos valEnd e := by
  have hsize : Holds (writeEntry buf wpos valEnd e) (wpos + 8) (le32Bytes e.value.length) :=
    (holds_put.put (.inl (by simp))).put (.inl (by simp))
  have hname : Holds (writeEntry buf wpos valEnd e) (wpos + 16) e.name := holds_put
  by_cases hv : e.value = []
  · refine ⟨?_,fun h => absurd hv h,hsize,hname⟩
    simp only [writeEntry,if_pos hv]
    refine (((Holds.put ?_ (.inl ?_)).put (.inl ?_)).put (.inl ?_)).put (.inl ?_)
    · exact holds_put
    all_goals simp
  · refine ⟨?_,fun _ => ?_,hsize,hname⟩
    · simp only [writeEntry,if_neg hv]
      refine ((((Holds.put ?_ (.inl ?_)).put (.inl ?_)).put (.inl ?_)).put (.inl ?_)).put (.inl ?_)
      · exact holds_put
      all_goals simp
    · simp only [writeEntry,if_neg hv]
      refine (((Holds.put ?_ (.inl ?_)).put (.inl ?_)).put (.inl ?_)).put (.inl ?_)
      · exact holds_put
      all_goals simp

theorem HeadAt.congr (h : HeadAt data wpos valEnd e)
    (hc : ∀ i, wpos ≤ i → i < wpos + entrySize e.name.length → data' i = data i) :
    HeadAt data' wpos valEnd e := by
  have hsize := le_entrySize e.name.length
  refine ⟨?_,fun hv => ?_,?_,?_⟩
  · exact h.start.congr fun i h1 h2 => hc i h1 (by simp at h2; omega)
  · exact (h.offset hv).congr fun i h1 h2 => hc i (by omega) (by simp at h2; omega)
  · exact h.size.congr fun i h1 h2 => hc i (by omega) (by simp at h2; omega)
  · exact h.name.congr fun i h1 h2 => hc i (by omega) (by omega)

/-- What there is space for: an entry without a value takes none for it. -/
theorem placeEntries_cons (h : wpos + entrySize e.name.length + alignUp e.value.length ≤ valEnd) :
    placeEntries buf wpos valEnd (e :: es) =
      placeEntries (writeEntry (put buf (valEnd - alignUp e.value.length) e.value) wpos
        (valEnd - alignUp e.value.length) e) (wpos + entrySize e.name.length)
        (valEnd - alignUp e.value.length) es := by
  simp only [placeEntries]
  rw [if_neg (by omega),if_neg fun hn => by omega]

theorem placeEntries_other (h : i < wpos ∨ valEnd ≤ i) :
    placeEntries buf wpos valEnd es i = buf i := by
  induction es generalizing buf wpos valEnd with
  | nil => rfl
  | cons e es ih =>
    by_cases hfit : wpos + entrySize e.name.length + alignUp e.value.length ≤ valEnd
    · have hval := le_alignUp e.value.length
      rw [placeEntries_cons hfit,ih (by omega),writeEntry_other (by omega),put_other (by omega)]
    · simp only [placeEntries]
      by_cases hw : valEnd < wpos + entrySize e.name.length
      · rw [if_pos hw]
      · have hne : e.value ≠ [] := by
          intro h0
          rw [h0] at hfit
          exact hfit (by simp only [length_nil,alignUp]; omega)
        rw [if_neg hw,if_pos ⟨hne,by omega⟩]

theorem placedAt_of_head (hv : e.Valid) (h : HeadAt data wpos valEnd e)
    (hval : Holds data valEnd e.value) (hpos : 0 < valEnd) (hin : wpos + 16 + e.name.length ≤ bs)
    (hend : valEnd + e.value.length ≤ bs) (hbs : bs ≤ 4096) : PlacedAt data bs wpos e := by
  have hlen := hv.value
  refine ⟨hin,h.start 0 (by simp),h.start 1 (by simp),?_,h.name,fun hne => ?_⟩
  · rw [le32_of_holds h.size]
    omega
  · rw [le16_of_holds (h.offset hne),Nat.mod_eq_of_lt (by omega)]
    exact ⟨hpos,hend,hval⟩

theorem laid_placeEntries (hv : ∀ e ∈ es, e.Valid) (hz : ∀ i, wpos ≤ i → i < valEnd → buf i = 0)
    (hfit : wpos + footprint es + 4 ≤ valEnd) (hend : valEnd ≤ bs) (hbs : bs ≤ 4096) :
    Laid (placeEntries buf wpos valEnd es) bs wpos es := by
  induction es generalizing buf wpos valEnd with
  | nil =>
    have h0 : buf wpos = 0 := hz wpos (by omega) (by omega)
    have h1 : buf (wpos + 1) = 0 := hz (wpos + 1) (by omega) (by omega)
    change noEntry buf bs wpos = true
    simp [noEntry,h0,h1]
  | cons e es ih =>
    have he := hv e mem_cons_self
    have hsize := le_entrySize e.name.length
    have hval := le_alignUp e.value.length
    rw [footprint_cons] at hfit
    rw [placeEntries_cons (by omega)]
    refine ⟨placedAt_of_head he (headAt_writeEntry.congr fun i _ hi => placeEntries_other (.inl hi))
      ?_ (by omega) (by omega) (by omega) hbs,
      ih (fun e he => hv e (mem_cons_of_mem _ he)) (fun i hi hi' => ?_) (by omega) (by omega)⟩
    · refine (holds_put (b := buf)).congr fun i hi _ => ?_
      rw [placeEntries_other (.inr hi),writeEntry_other (by omega)]
    · rw [writeEntry_other (.inr hi),put_other (.inl hi')]
      exact hz i (by omega) (by omega)

/-- A rebuilt block holds its entries, if there is space for all of them and for an end
mark. -/
theorem laid_rebuilt (hv : ∀ e ∈ es, e.Valid) (hfit : 32 + footprint es + 4 ≤ bs)
    (hbs : bs ≤ 4096) : Laid (rebuilt bs buf es) bs 32 es := by
  refine laid_placeEntries hv (fun i hi hi' => ?_) hfit .refl hbs
  obtain ⟨k,rfl⟩ := Nat.exists_eq_add_of_le hi
  rw [put_at k (by simp; omega),getElem_replicate]

theorem rebuilt_head (h : i < 32) : rebuilt bs buf es i = buf i := by
  rw [rebuilt,placeEntries_other (.inl h),put_other (.inl h)]

theorem parseXattrEntries_congr (h : ∀ o, lo ≤ o → data' o = data o)
    (hpos : lo ≤ pos) (hbase : lo ≤ base) :
    parseXattrEntries data' bs base room pos = parseXattrEntries data bs base room pos := by
  have hbytes : ∀ {o n : Nat}, lo ≤ o → bytesAt data' o n = bytesAt data o n := fun ho =>
    map_congr_left fun k _ => h _ (by omega)
  induction room generalizing pos with
  | zero => rfl
  | succ room ih =>
    have h0 := h pos hpos
    have h1 := h (pos + 1) (by omega)
    have hoff : le16 data' (pos + 2) = le16 data (pos + 2) := le16_congr fun k _ => h _ (by omega)
    have hsize : le32 data' (pos + 8) = le32 data (pos + 8) := le32_congr fun k _ => h _ (by omega)
    have hend : noEntry data' bs pos = noEntry data bs pos := by simp [noEntry,h0,h1]
    have hentry : entryAt data' bs base pos = entryAt data bs base pos := by
      have hv : lo ≤ base + le16 data (pos + 2) := by omega
      have hn : lo ≤ pos + 16 := by omega
      simp [entryAt,valueAt,h0,h1,hoff,hsize,hbytes hv,hbytes hn]
    have hnext : lo ≤ pos + entrySize (data pos).toNat := by omega
    simp [parseXattrEntries,h0,hend,hentry,ih hnext]

variable {i : Inode}

/-- The number of the attribute block is in front of all they are read from. -/
theorem inlineXattrs_setFileAclLo :
    inlineXattrs inodeSize (i.setFileAclLo acl) = inlineXattrs inodeSize i := by
  have hdata : ∀ o, 128 ≤ o → (i.setFileAclLo acl).data o = i.data o := fun o ho => by
    have hne : (o - 40) / 4 ≠ 16 := by omega
    simp [Inode.data,Inode.setFileAclLo,Inode.setWord,update_of_ne hne]
  have hextra : (i.setFileAclLo acl).extraIsize inodeSize = i.extraIsize inodeSize := by
    simp [Inode.extraIsize,le16_congr fun k _ => hdata (128 + k) (by omega)]
  have hmagic : le32 (i.setFileAclLo acl).data (128 + i.extraIsize inodeSize) =
      le32 i.data (128 + i.extraIsize inodeSize) := le32_congr fun k _ => hdata _ (by omega)
  simp [inlineXattrs,hextra,hmagic,parseXattrEntries_congr hdata
    (show 128 ≤ 128 + i.extraIsize inodeSize + 4 by omega)
      (show 128 ≤ 128 + i.extraIsize inodeSize + 4 by omega)]

/-- The attribute block of inode `n` holds `es`, with an end mark behind them; without a
block there are none. -/
structure Stored (v : Volume) (n : Nat) (es : List XattrEntry) : Prop where
  valid : ∀ e ∈ es, e.Valid
  fits : 32 + footprint es + 4 ≤ v.blockSize
  none : (v.inodes n).fileAclLo = 0 → es = []
  block : (v.inodes n).fileAclLo ≠ 0 → v.isValidBlock (v.inodes n).fileAclLo = true ∧
    le32 (v.blocks (v.inodes n).fileAclLo) 0 = xattrMagic ∧
    Laid (v.blocks (v.inodes n).fileAclLo) v.blockSize 32 es

variable {v v' : Volume} {ino n b cap : Nat} {value : List UInt8}

theorem readInode_ok (h : v.readInode n = .ok i) : i = v.inodes n := by
  unfold Volume.readInode at h
  split at h
  · cases h
  · exact (Except.ok.inj h).symm

theorem readXattrs_stored (hi : v.readInode n = .ok (v.inodes n)) (h : Stored v n es)
    (hroom : (inlineXattrs inodeSize (v.inodes n)).length + es.length ≤ 16) :
    v.readXattrs inodeSize n = .ok (inlineXattrs inodeSize (v.inodes n) ++ es) := by
  simp only [readXattrs,hi]
  by_cases hacl : (v.inodes n).fileAclLo = 0
  · rw [if_pos hacl,h.none hacl,append_nil]
  · obtain ⟨hv,hm,hl⟩ := h.block hacl
    rw [if_neg hacl,Volume.readBlock,if_pos hv]
    dsimp only
    rw [if_pos hm,parseXattrEntries_laid hl h.valid (by unfold maxXattrEntries; omega)]

/-- The block that a call writes, what it held and the inode after that. -/
inductive Opens (v : Volume) (ino : Nat) : Nat → Bytes → Inode → Prop
  | old (hacl : (v.inodes ino).fileAclLo ≠ 0)
      (hv : v.isValidBlock (v.inodes ino).fileAclLo = true) :
      Opens v ino (v.inodes ino).fileAclLo (v.blocks (v.inodes ino).fileAclLo) (v.inodes ino)
  | new {c : Nat} (hacl : (v.inodes ino).fileAclLo = 0) (hfree : v.Free c) :
      Opens v ino c newXattrBlock ((v.inodes ino).setFileAclLo c)

def Volume.withXattrs (v : Volume) (groups : Nat → Group) (count ino b : Nat) (i : Inode)
    (block : Bytes) : Volume :=
  { v with
    groups := groups
    freeBlocksCount := count
    inodes := update v.inodes ino i
    blocks := update v.blocks b block }

theorem writeInode_ok (h : writeInode n i v = .ok () w) : w = v.setInode n i := by
  unfold writeInode at h
  split at h
  · cases h
  · cases h
    rfl

theorem xattrBlock_spec (h : xattrBlock ino (v.inodes ino) v = .ok (b,buf) w) :
    ∃ groups count i, Opens v ino b buf i ∧ w = v.withXattrs groups count ino b i buf := by
  unfold xattrBlock at h
  by_cases hacl : (v.inodes ino).fileAclLo = 0
  · rw [if_neg (not_not.2 hacl)] at h
    split at h
    · cases h
    · rename_i c u ha
      obtain hal := allocated_of_ok ha
      split at h
      · cases h
      · rename_i x hw
        cases h
        obtain ⟨groups,count,rfl⟩ := hal.same
        obtain rfl := writeInode_ok hw
        exact ⟨groups,count,_,.new hacl hal.free,rfl⟩
  · rw [if_pos hacl] at h
    unfold Volume.readBlock at h
    by_cases hv : v.isValidBlock (v.inodes ino).fileAclLo = true
    · rw [if_pos hv] at h
      cases h
      refine ⟨v.groups,v.freeBlocksCount,_,.old hacl hv,?_⟩
      simp [withXattrs]
    · rw [if_neg hv] at h
      cases h

/-- The entries of a block after a call. -/
def afterSet (v : Volume) (buf : Bytes) (key : XattrKey) (value : List UInt8) : List XattrEntry :=
  keptEntries buf v.blockSize key v.blockSize 15 32 ++ newEntry key value

theorem setXattr_spec (h : setXattr ino key value v = .ok () v') :
    v.readInode ino = .ok (v.inodes ino) ∧ ∃ groups count b buf i, Opens v ino b buf i ∧
      v' = v.withXattrs groups count ino b i
        (rebuilt v.blockSize buf (afterSet v buf key value)) := by
  unfold setXattr at h
  cases hi : v.readInode ino with
  | error e => rw [hi] at h; cases h
  | ok i =>
    obtain rfl := readInode_ok hi
    rw [hi] at h
    dsimp only at h
    split at h
    · cases h
    · rename_i b buf u hx
      obtain ⟨groups,count,i,hopen,rfl⟩ := xattrBlock_spec hx
      refine ⟨rfl,groups,count,b,buf,i,hopen,?_⟩
      split at h
      · cases h
      · rename_i j hj
        obtain rfl := readInode_ok hj
        rw [writeInode_ok h]
        simp [withXattrs,setInode,Volume.setBlock,afterSet]

/-- The part of the inode that is read for attributes of its own is in its 256 bytes. -/
def InlineRead (inodeSize : Nat) (i : Inode) : Prop :=
  inodeSize ≤ 256 ∨ i.extraIsize inodeSize = 0 ∨
    i.extraIsize inodeSize ≤ 124 ∧ le32 i.data (128 + i.extraIsize inodeSize) ≠ xattrMagic

/-- There is room for an attribute: its name and its value are not cut off, the value is
not empty, the name is not that of the end mark, and the block has space for it with the
others and for an end mark. No attribute in the inode has that name, and all of them are
among the 16 read. No other inode has the block, or a free one. -/
structure Room (v : Volume) (inodeSize ino : Nat) (key : XattrKey) (value : List UInt8)
    (es : List XattrEntry) : Prop where
  sane : v.Sane
  inode : ∀ n, InlineRead inodeSize (v.inodes n)
  stored : Stored v ino es
  valid : XattrEntry.Valid ⟨key.1,key.2,value⟩
  nonempty : value ≠ []
  fits : 32 + footprint (others key es ++ [⟨key.1,key.2,value⟩]) + 4 ≤ v.blockSize
  inline : ∀ e ∈ inlineXattrs inodeSize (v.inodes ino), e.key ≠ key
  before : (inlineXattrs inodeSize (v.inodes ino)).length + es.length ≤ 16
  after : (inlineXattrs inodeSize (v.inodes ino)).length + (others key es).length + 1 ≤ 16
  unshared : ∀ n ≠ ino, (v.inodes n).fileAclLo ≠ 0 →
    (v.inodes n).fileAclLo ≠ (v.inodes ino).fileAclLo ∧ ¬ v.Free (v.inodes n).fileAclLo

theorem Opens.laid (h : Opens v ino b buf i) (hs : Stored v ino es) :
    le32 buf 0 = xattrMagic ∧ Laid buf v.blockSize 32 es := by
  cases h with
  | old hacl hv => exact (hs.block hacl).2
  | new hacl hfree =>
    obtain rfl := hs.none hacl
    refine ⟨by decide,?_⟩
    change noEntry newXattrBlock v.blockSize 32 = true
    have h0 : newXattrBlock 32 = 0 := by decide
    have h1 : newXattrBlock 33 = 0 := by decide
    simp [noEntry,h0,h1]

theorem Opens.inode (h : Opens v ino b buf i) (hv : v.Sane) :
    i.fileAclLo = b ∧ b ≠ 0 ∧ v.isValidBlock b = true := by
  cases h with
  | old hacl hv' => exact ⟨rfl,hacl,hv'⟩
  | new hacl hfree =>
    refine ⟨?_,Nat.ne_of_gt (hv.free b hfree).1,hv.valid hfree⟩
    simp [Inode.fileAclLo,Inode.setFileAclLo,Inode.setWord]

theorem Opens.inline (h : Opens v ino b buf i) :
    inlineXattrs inodeSize i = inlineXattrs inodeSize (v.inodes ino) := by
  cases h with
  | old hacl hv => rfl
  | new hacl hfree => exact inlineXattrs_setFileAclLo

section

variable (h : Room v inodeSize ino key value es) (ho : Opens v ino b buf i)
include h ho

theorem Room.ne_block (hn : n ≠ ino) (hacl : (v.inodes n).fileAclLo ≠ 0) :
    (v.inodes n).fileAclLo ≠ b := by
  cases ho with
  | old hacl' hv => exact (h.unshared n hn hacl).1
  | new hacl' hfree =>
    rintro rfl
    exact (h.unshared n hn hacl).2 hfree

theorem Room.afterSet : afterSet v buf key value = others key es ++ [⟨key.1,key.2,value⟩] := by
  have hlaid := (ho.laid h.stored).2
  have hcount : 16 * es.length ≤ footprint es := length_le_footprint
  have hfits := h.stored.fits
  have hafter := h.after
  rw [Ext.afterSet,keptEntries_laid hlaid h.stored.valid (by omega) (by omega),newEntry,
    if_neg h.nonempty,take_of_length_le h.valid.name,take_of_length_le h.valid.value]

end

variable {groups : Nat → Group} {count : Nat}

section

variable (h : Room v inodeSize ino key value es) (ho : Opens v ino b buf i)
include h ho

theorem Room.stored_self : Stored (v.withXattrs groups count ino b i
      (rebuilt v.blockSize buf (Ext.afterSet v buf key value))) ino
      (others key es ++ [⟨key.1,key.2,value⟩]) := by
  obtain ⟨hacl,hb,hvalid⟩ := ho.inode h.sane
  have hmagic := (ho.laid h.stored).1
  have hv : ∀ e ∈ others key es ++ [⟨key.1,key.2,value⟩], XattrEntry.Valid e := by
    intro e he
    rcases mem_append.1 he with he | he
    · exact h.stored.valid e (mem_filter.1 he).1
    · rw [mem_singleton.1 he]
      exact h.valid
  have hinode : (update v.inodes ino i ino).fileAclLo = b := by
    rw [update_self,hacl]
  refine ⟨hv,h.fits,fun h0 => absurd (hinode.symm.trans h0) hb,fun _ => ?_⟩
  simp only [withXattrs,hacl,update_self]
  refine ⟨hvalid,?_,?_⟩
  · rw [← hmagic]
    exact le32_congr fun k hk => rebuilt_head (by omega)
  · rw [h.afterSet ho]
    exact laid_rebuilt hv h.fits h.sane.blockSize.2

theorem Room.stored_other (hn : n ≠ ino) (hs : Stored v n es') :
    Stored (v.withXattrs groups count ino b i block) n es' := by
  have hinode : update v.inodes ino i n = v.inodes n := update_of_ne hn _ _
  refine ⟨hs.valid,hs.fits,fun h0 => hs.none (hinode ▸ h0),fun h0 => ?_⟩
  have hacl : (v.inodes n).fileAclLo ≠ 0 := fun hz => h0 (by
    change (update v.inodes ino i n).fileAclLo = 0
    rw [hinode,hz])
  simp only [withXattrs,hinode,update_of_ne (h.ne_block ho hn hacl)]
  exact hs.block hacl

end

/-- The lookup of `key` among entries. -/
def lookupXattr (key : XattrKey) (cap : Nat) (es : List XattrEntry) :
    Except FsError (Nat × List UInt8) :=
  match es.find? fun e => decide (e.key = key) with
  | some e => .ok (e.value.length,e.value.take cap)
  | none => .error .notFound

theorem getXattr_of_read (h : v.readXattrs inodeSize n = .ok list) :
    v.getXattr inodeSize n key cap = lookupXattr key cap list := by
  rw [getXattr,h]
  rfl

theorem find_others (h : key' ≠ key) : ((others key es).find? fun e => decide (e.key = key')) =
      es.find? fun e => decide (e.key = key') := by
  rw [others,find?_filter]
  congr 1
  funext e
  by_cases hk : e.key = key'
  · simp [hk,h]
  · simp [hk]

theorem lookup_set_self (h : ∀ e ∈ inl, e.key ≠ key) :
    lookupXattr key cap (inl ++ (others key es ++ [⟨key.1,key.2,value⟩])) =
      .ok (value.length,value.take cap) := by
  have hi : (inl.find? fun e => decide (e.key = key)) = none :=
    find?_eq_none.2 fun e he => by simpa using h e he
  have ho : ((others key es).find? fun e => decide (e.key = key)) = none :=
    find?_eq_none.2 fun e he => by simpa using (mem_filter.1 he).2
  have hk : XattrEntry.key ⟨key.1,key.2,value⟩ = key := rfl
  simp [lookupXattr,find?_append,hi,ho,hk]

theorem lookup_set_other (h : key' ≠ key) :
    lookupXattr key' cap (inl ++ (others key es ++ [⟨key.1,key.2,value⟩])) =
      lookupXattr key' cap (inl ++ es) := by
  have hnew : ¬ XattrEntry.key ⟨key.1,key.2,value⟩ = key' := fun hk => h hk.symm
  simp [lookupXattr,find?_append,find_others h,hnew]

section After

variable {groups : Nat → Group}

theorem readInode_withXattrs (h : v.readInode n = .ok (v.inodes n)) :
    (v.withXattrs groups count ino b i block).readInode n =
      .ok ((v.withXattrs groups count ino b i block).inodes n) := by
  unfold Volume.readInode at h
  split at h
  · cases h
  · rename_i hn
    exact if_neg hn

theorem Room.readXattrs_other (h : Room v inodeSize ino key value es) (ho : Opens v ino b buf i)
    (hn : n ≠ ino) : (v.withXattrs groups count ino b i block).readXattrs inodeSize n =
      v.readXattrs inodeSize n := by
  have hinode : (v.withXattrs groups count ino b i block).inodes n = v.inodes n :=
    update_of_ne hn _ _
  have hread : (v.withXattrs groups count ino b i block).readInode n = v.readInode n := by
    unfold Volume.readInode
    rw [hinode]
    rfl
  simp only [readXattrs,hread]
  cases hi : v.readInode n with
  | error e => rfl
  | ok j =>
    obtain rfl := readInode_ok hi
    by_cases hacl : (v.inodes n).fileAclLo = 0
    · simp [hacl]
    · have hblock : (v.withXattrs groups count ino b i block).readBlock (v.inodes n).fileAclLo =
          v.readBlock (v.inodes n).fileAclLo := by
        have hb : (v.withXattrs groups count ino b i block).blocks (v.inodes n).fileAclLo =
            v.blocks (v.inodes n).fileAclLo :=
          update_of_ne (h.ne_block ho hn hacl) _ _
        unfold Volume.readBlock
        rw [hb]
        rfl
      simp only [hacl,↓reduceIte,hblock]
      rfl

end After

/-- What a call leaves: the attribute, the others of the inode and those of other inodes,
and the blocks they are in. -/
theorem set_effect (h : setXattr ino key value v = .ok () v')
    (hr : Room v inodeSize ino key value es) :
    (∀ cap, v'.getXattr inodeSize ino key cap = .ok (value.length,value.take cap)) ∧
    (∀ key' cap, key' ≠ key →
      v'.getXattr inodeSize ino key' cap = v.getXattr inodeSize ino key' cap) ∧
    (∀ n key' cap, n ≠ ino → v'.getXattr inodeSize n key' cap = v.getXattr inodeSize n key' cap) ∧
    Stored v' ino (others key es ++ [⟨key.1,key.2,value⟩]) ∧
    ∀ n es', n ≠ ino → Stored v n es' → Stored v' n es' := by
  obtain ⟨hi,groups,count,b,buf,i,ho,rfl⟩ := setXattr_spec h
  have hold := readXattrs_stored hi hr.stored hr.before
  have hnew : (v.withXattrs groups count ino b i
      (rebuilt v.blockSize buf (afterSet v buf key value))).readXattrs inodeSize ino =
      .ok (inlineXattrs inodeSize (v.inodes ino) ++ (others key es ++ [⟨key.1,key.2,value⟩])) := by
    have hinl : inlineXattrs inodeSize (update v.inodes ino i ino) =
        inlineXattrs inodeSize (v.inodes ino) := by
      rw [update_self]
      exact ho.inline
    have hafter := hr.after
    rw [readXattrs_stored (readInode_withXattrs hi) (hr.stored_self ho) ?_]
    · exact congrArg (fun l => Except.ok (l ++ _)) hinl
    · change (inlineXattrs inodeSize (update v.inodes ino i ino)).length + _ ≤ 16
      rw [hinl,length_append,length_singleton]
      omega
  refine ⟨fun cap => ?_,fun key' cap hk => ?_,fun n key' cap hn => ?_,hr.stored_self ho,
    fun n es' hn hs => hr.stored_other ho hn hs⟩
  · rw [getXattr_of_read hnew,lookup_set_self hr.inline]
  · rw [getXattr_of_read hnew,getXattr_of_read hold,lookup_set_other hk]
  · unfold getXattr
    rw [hr.readXattrs_other ho hn]

theorem smallVolume_room : Room smallVolume 256 3 (1,[97]) [7,8] [] where
  sane := smallVolume_sane
  inode _ := .inl (by decide)
  stored := ⟨by simp,by decide,fun _ => rfl,fun h => absurd rfl h⟩
  valid := ⟨by decide,by decide,by decide⟩
  nonempty := by decide
  fits := by decide
  inline := by
    have : inlineXattrs 256 (smallVolume.inodes 3) = [] := by decide +kernel
    simp [this]
  before := by decide +kernel
  after := by decide +kernel
  unshared := fun n _ h => absurd rfl h

/-- The volume after attributes of inode 3 have been set. -/
def afterSets (calls : List (XattrKey × List UInt8)) : EStateM.Result FsError Volume Unit :=
  calls.foldl (fun r c => match r with
    | .ok _ v => setXattr 3 c.1 c.2 v
    | .error e v => .error e v) (.ok () smallVolume)

/-- What is read of the attribute set last, if all calls returned `Ok`. -/
def lastRead (calls : List (XattrKey × List UInt8)) : Option (Option (Nat × List UInt8)) :=
  match afterSets calls, calls.getLast? with
  | .ok _ v, some c => some (v.getXattr 256 3 c.1 300).toOption
  | _, _ => none

end Miku.Ext
