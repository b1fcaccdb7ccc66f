import Mathlib.Data.List.Nodup
import Mathlib.Data.Nat.ModEq
import Miku.Proofs.CommitLog

namespace Miku.Ext
open Lib List
open Option hiding mem_map map_map

namespace Journal

variable {j k u w : Journal}

/-- The journal superblock as a commit reads it, and what the disk has at the other
positions. -/
def logged (j : Journal) (p : Nat) : Bytes :=
  if p = 0 then j.store.view (j.map 0) else j.store.disk (j.map p)

def blocks (j : Journal) : List Nat := j.txnTags.map Prod.fst

/-- The log has no record of this or a later sequence number yet. -/
def Fresh (j : Journal) : Prop :=
  ∀ p, j.first ≤ p → p < j.maxlen → j.map p ≠ 0 → be32 (j.logged p) 0 = jbdMagic →
    be32 (j.logged p) 8 < j.seq

/-- A mounted volume with an open transaction. -/
structure Ready (j : Journal) : Prop where
  collecting : j.Collecting
  hasJournal : j.hasJournal = true
  super : be32 (j.store.view (j.map 0)) 0 = jbdMagic
  maxlen : jsbMaxlen (j.store.view (j.map 0)) = j.maxlen
  first : jsbFirst (j.store.view (j.map 0)) = j.first
  mapped : j.map 0 ≠ 0
  valid : ∀ p, j.map p ≠ 0 → j.store.isValidBlock (j.map p) = true
  inj : ∀ p q, j.map p ≠ 0 → j.map p = j.map q → p = q
  area : j.first ≤ j.txnDescPos ∧ j.txnDescPos < j.maxlen
  seq : j.seq < 4294967296
  size : 1024 ≤ j.store.blockSize
  old : j.Fresh
  home : ∀ t ∈ j.blocks, j.store.isValidBlock t = true ∧ t < 4294967296 ∧ ∀ p, j.map p ≠ t

/-- `u` is a volume with the journal of `j`; its other blocks may hold anything. -/
structure SameJournal (j u : Journal) : Prop where
  rest : u = { j with store := u.store }
  size : u.store.blockSize = j.store.blockSize
  count : u.store.blocksCount = j.store.blocksCount
  logged : ∀ p, u.logged p = j.logged p

/-- `k` is what a mount finds after a stop in `w`: the journal as it is on the disk.
The other blocks may not have been written out, so they may hold anything. -/
structure Remounted (w k : Journal) : Prop where
  hasJournal : k.hasJournal = w.hasJournal
  map : k.map = w.map
  size : k.store.blockSize = w.store.blockSize
  count : k.store.blocksCount = w.store.blocksCount
  log : ∀ p, k.store.view (w.map p) = w.store.disk (w.map p)
  coherent : k.store.Coherent

/-- Whatever the tagged blocks hold at the commit, recovery after a stop brings it
back, but for the revoked ones. -/
def RoundTrips (j : Journal) : Prop :=
  ∀ u, SameJournal j u → ∀ k, Remounted (final ext3CommitTxn u) k →
    ∀ t ∈ j.blocks, t ∉ j.txnRevokes → (final ext3Recover k).store.view t = u.store.view t

namespace Ready

theorem maxlen_lt (h : j.Ready) : j.maxlen < 4294967296 := h.maxlen ▸ be32_lt

theorem position_eq (h : j.Ready) (i : Nat) :
    j.position i = j.first + (j.txnDescPos - j.first + i) % (j.maxlen - j.first) :=
  skipBlocks_ring h.maxlen_lt i _ h.area.1 h.area.2

theorem position_area (h : j.Ready) (i : Nat) : j.first ≤ j.position i ∧ j.position i < j.maxlen := by
  have := h.area
  rw [h.position_eq]
  have := Nat.mod_lt (j.txnDescPos - j.first + i) (by omega : j.maxlen - j.first > 0)
  omega

theorem position_eq_iff (h : j.Ready) (i i' : Nat) :
    j.position i = j.position i' ↔ i % (j.maxlen - j.first) = i' % (j.maxlen - j.first) := by
  rw [h.position_eq,h.position_eq,Nat.add_left_cancel_iff]
  exact ⟨Nat.ModEq.add_left_cancel' _,Nat.ModEq.add_left _⟩

theorem next_position (i : Nat) :
    nextJournalBlock (j.position i) j.first j.maxlen = j.position (i + 1) :=
  (skipBlocks_succ _ _).symm

theorem skip_position (i n : Nat) :
    skipBlocks j.first j.maxlen (j.position i) n = j.position (i + n) := by
  induction n with
  | zero => rfl
  | succ n ih => rw [skipBlocks_succ,ih,next_position,add_assoc]

theorem same (h : j.Ready) (hu : SameJournal j u) : u.Ready := by
  have hv : u.store.view (j.map 0) = j.store.view (j.map 0) := by
    have := hu.logged 0
    have hm : u.map = j.map := by rw [hu.rest]
    simpa [Journal.logged,hm] using this
  have hval : ∀ b, u.store.isValidBlock b = j.store.isValidBlock b := fun b => by
    simp [Store.isValidBlock,hu.count]
  have hl := hu.logged
  have hsize := hu.size
  obtain ⟨s,hs⟩ : ∃ s, u = { j with store := s } := ⟨_,hu.rest⟩
  subst hs
  simp only at hv hval hl hsize
  exact {
    collecting := ⟨h.collecting.active,h.collecting.txn,h.collecting.tags,h.collecting.pos,
      h.collecting.nodup,h.collecting.room⟩
    hasJournal := h.hasJournal
    super := by simpa [hv] using h.super
    maxlen := by simpa [hv] using h.maxlen
    first := by simpa [hv] using h.first
    mapped := h.mapped
    valid := fun p hp => (hval _).trans (h.valid p hp)
    inj := h.inj
    area := h.area
    seq := h.seq
    size := hsize ▸ h.size
    old := fun p hp hp' hm => by
      simp only [hl p]
      exact h.old p hp hp' hm
    home := fun t ht => ⟨(hval t).trans (h.home t ht).1,(h.home t ht).2⟩ }

end Ready

variable {p : Nat}

theorem mem_logRest (h : (p,d) ∈ j.logWrites.tail) :
    (∃ t ∈ j.txnTags, p = t.2 ∧ d = j.store.view t.1) ∨
      (j.txnRevokes ≠ [] ∧ p = j.pos ∧ d = revokeBlock j.seq j.txnRevokes) ∨
      ((p = if j.txnRevokes = [] then j.pos else j.advanceJournalPos j.pos) ∧
        d = commitBlock j.seq) := by
  simp only [logWrites,tail_cons,mem_append,mem_map,Prod.mk.injEq] at h
  rcases h with ⟨t,ht,rfl,rfl⟩ | h
  · exact .inl ⟨t,ht,rfl,rfl⟩
  · by_cases hn : j.txnRevokes = []
    · simp only [hn,↓reduceIte,mem_singleton,Prod.mk.injEq] at h ⊢
      exact .inr (.inr h)
    · simp only [hn,↓reduceIte,mem_cons,Prod.mk.injEq,not_mem_nil,or_false] at h ⊢
      rcases h with h | h
      · exact .inr (.inl ⟨hn,h⟩)
      · exact .inr (.inr h)

theorem logWrites_eq :
    j.logWrites = (j.txnDescPos,descriptorBlock j.seq j.blocks) :: j.logWrites.tail := rfl

/-- The superblock marked: the cached one, or what the log left in its place. -/
def superBefore (j : Journal) : Bytes :=
  (j.store.cached (j.map 0)).getD ((lastWrite 0 j.logWrites).getD (j.store.disk (j.map 0)))

theorem superBefore_eq (h : lastWrite 0 j.logWrites = none) :
    j.superBefore = j.store.view (j.map 0) := by
  simp only [superBefore,h,getD_none]
  rfl

theorem be32_marked (h : x + 4 ≤ 24) : be32 (j.marked b) x = be32 b x := by
  unfold marked
  rw [be32_put_other (by omega),be32_put_other (by omega)]

theorem jsbStart_marked : jsbStart (j.marked b) = j.txnDescPos % 4294967296 := be32_put_self

theorem jsbStartSequence_marked : jsbStartSequence (j.marked b) = j.seq % 4294967296 := by
  unfold jsbStartSequence marked
  rw [be32_put_other (by simp),be32_put_self]

theorem lastWrite_onDisk (hr : j.Ready) (hp : j.map p ≠ 0) (ws : List (Nat × Bytes)) :
    lastWrite (j.map p) (onDisk j.map ws) = lastWrite p ws :=
  lastWrite_map j.map ws fun _ _ he => (hr.inj p _ hp he.symm).symm

theorem logAt_hole (hw : Committed j w) (hk : Remounted w k) (hp : j.map p = 0) :
    k.logAt p = none := by
  simp [logAt,hk.map,hw.map,hp]

section AfterCommit

variable (hr : j.Ready) (hw : Committed j w) (hk : Remounted w k)

include hr hw hk

variable {p : Nat}

theorem logAt_mapped (hp : j.map p ≠ 0) : k.logAt p = some (w.store.disk (j.map p)) := by
  have hv : k.store.isValidBlock (j.map p) = true := by
    simpa [Store.isValidBlock,hk.count,hw.count] using hr.valid p hp
  have hl := hk.log p
  rw [hw.map] at hl
  simp [logAt,hk.map,hw.map,hp,hv,hl]

theorem logAt_zero : k.logAt 0 = some (j.marked j.superBefore) := by
  rw [logAt_mapped hr hw hk hr.mapped,hw.super,lastWrite_onDisk hr hr.mapped]
  rfl

theorem logAt_pos (h0 : p ≠ 0) (hp : j.map p ≠ 0) :
    k.logAt p = some ((lastWrite p j.logWrites).getD (j.store.disk (j.map p))) := by
  have hne : j.map p ≠ j.map 0 := fun h => h0 (hr.inj p 0 hp h)
  rw [logAt_mapped hr hw hk hp,hw.log _ hp hne,lastWrite_onDisk hr hp]

theorem superblock_eq : k.superblock =
    if be32 j.superBefore 0 = jbdMagic then some (j.marked j.superBefore) else none := by
  simp only [superblock,hk.hasJournal,hw.hasJournal,hr.hasJournal,↓reduceIte,
    logAt_zero hr hw hk,Option.filter,be32_marked (Nat.le_add_left 4 20),beq_iff_eq]

theorem scannedWrites_zero (h0 : j.txnDescPos = 0) : k.scannedWrites = [] := by
  simp only [scannedWrites,superblock_eq hr hw hk]
  split
  · rfl
  · rename_i h
    split at h
    · cases h
      simp [jsbStart_marked,h0]
    · cases h

end AfterCommit

/-- How the log of a transaction is scanned if its superblock is intact. -/
def scan (j : Journal) : Scan :=
  ⟨j.first,j.maxlen,j.seq,min j.store.blockSize 4096,min j.maxlen 512⟩

theorem Ready.descriptorTags_eq (hr : j.Ready) (ht : j.txnTags ≠ []) :
    descriptorTags (descriptorBlock j.seq j.blocks) j.scan.readSize = j.blocks := by
  have hsize := hr.size
  refine descriptorTags_descriptorBlock (by simpa [blocks] using ht) (fun t h => (hr.home t h).2.1)
    (by simpa [blocks] using hr.collecting.room) ?_
  simp only [scan]
  omega

theorem scannedWrites_intact (hr : j.Ready) (hw : Committed j w) (hk : Remounted w k)
    (hs : j.superBefore = j.store.view (j.map 0)) (h0 : j.txnDescPos ≠ 0) : k.scannedWrites =
      notRevokedBefore [] (scanLog j.scan k.logAt j.scan.maxScan j.txnDescPos 0) := by
  have hpos : j.txnDescPos % 4294967296 = j.txnDescPos :=
    Nat.mod_eq_of_lt (lt_trans hr.area.2 hr.maxlen_lt)
  have hc : scanOf k.store.blockSize (j.marked j.superBefore) = j.scan := by
    have hf : jsbFirst (j.marked j.superBefore) = j.first := by
      rw [jsbFirst,be32_marked (by omega),hs]
      exact hr.first
    have hm : jsbMaxlen (j.marked j.superBefore) = j.maxlen := by
      rw [jsbMaxlen,be32_marked (by omega),hs]
      exact hr.maxlen
    simp only [scanOf,scan,hf,hm,jsbStartSequence_marked,Nat.mod_eq_of_lt hr.seq,hk.size,hw.size]
  have hm : be32 j.superBefore 0 = jbdMagic := hs ▸ hr.super
  simp only [scannedWrites,superblock_eq hr hw hk,hm,↓reduceIte,jsbStart_marked,hpos,h0,hc]

/-- The descriptor, the data and the commit record find their places in the log:
nothing comes between them, none is overwritten, and each position has a block. -/
structure Fits (j : Journal) : Prop where
  revokes : j.txnRevokes = []
  length : j.txnTags.length + 2 ≤ j.maxlen - j.first
  mapped : ∀ i < j.txnTags.length + 2, j.position i ≠ 0 ∧ j.map (j.position i) ≠ 0

theorem logWrites_keys (hc : j.Collecting) (hn : j.txnRevokes = []) :
    j.logWrites.map Prod.fst = (List.range (j.txnTags.length + 2)).map j.position := by
  have hd : (j.txnTags.map fun t => (t.2,j.store.view t.1)).map Prod.fst =
      j.txnTags.map Prod.snd := by
    simp
  simp only [logWrites,hn,↓reduceIte,map_cons,map_append,hd,hc.tags_snd,map_nil,hc.pos_eq]
  rw [range_succ_eq_map,range_succ]
  simp only [map_append,map_cons,map_map,map_nil]
  rfl

theorem copiesAt_of_all {log : Nat → Option Bytes} {f : Nat → Bytes}
    (h : ∀ t ∈ tags, log t.2 = some (f t.1)) : copiesAt log tags = tags.map fun t => (t.1,f t.1) := by
  induction tags with
  | nil => rfl
  | cons t ts ih =>
    rw [copiesAt_cons,ih fun x hx => h x (mem_cons_of_mem _ hx)]
    simp [copiesAt,h t mem_cons_self]

/-- A position where the scan may look for a record: the descriptor's, or one after
the commit record. -/
def Outside (j : Journal) (p : Nat) : Prop :=
  ∃ m, p = j.position m ∧
    (m % (j.maxlen - j.first) = 0 ∨ j.txnTags.length + 2 ≤ m % (j.maxlen - j.first))

theorem ring_step (h : n ≤ m % N) : (m + 1) % N = 0 ∨ n ≤ (m + 1) % N := by
  rcases Nat.lt_or_ge 1 N with hN | hN
  · have hlt := Nat.mod_lt m (by omega : N > 0)
    rw [Nat.add_mod_eq_ite,Nat.mod_eq_of_lt hN]
    split <;> omega
  · obtain rfl | rfl : N = 0 ∨ N = 1 := by omega
    · rw [Nat.mod_zero] at h ⊢
      omega
    · exact .inl (Nat.mod_one _)

namespace Fits

section

variable (hf : j.Fits) (hr : j.Ready) (hw : Committed j w) (hk : Remounted w k)

theorem nodup (hf : j.Fits) (hr : j.Ready) : (j.logWrites.map Prod.fst).Nodup := by
  rw [logWrites_keys hr.collecting hf.revokes]
  refine List.Nodup.map_on ?_ nodup_range
  intro x hx y hy he
  have hlen := hf.length
  rw [mem_range] at hx hy
  rwa [hr.position_eq_iff,Nat.mod_eq_of_lt (by omega),Nat.mod_eq_of_lt (by omega)] at he

variable {p : Nat} {d : Bytes}

theorem mem_key (hf : j.Fits) (hr : j.Ready) (h : (p,d) ∈ j.logWrites) :
    ∃ i < j.txnTags.length + 2, p = j.position i := by
  have hp : p ∈ j.logWrites.map Prod.fst := mem_map.mpr ⟨_,h,rfl⟩
  rw [logWrites_keys hr.collecting hf.revokes] at hp
  obtain ⟨i,hi,rfl⟩ := mem_map.mp hp
  exact ⟨i,mem_range.mp hi,rfl⟩

theorem super_intact (hf : j.Fits) (hr : j.Ready) : j.superBefore = j.store.view (j.map 0) := by
  apply superBefore_eq
  apply lastWrite_none
  intro w hw h0
  obtain ⟨i,hi,hp⟩ := hf.mem_key hr (d := w.2) hw
  exact (hf.mapped i hi).1 (hp ▸ h0)

include hf hr hw hk

theorem logAt (h : (p,d) ∈ j.logWrites) : k.logAt p = some d := by
  obtain ⟨i,hi,rfl⟩ := hf.mem_key hr h
  obtain ⟨h0,hm⟩ := hf.mapped i hi
  rw [logAt_pos hr hw hk h0 hm,lastWrite_of_mem (hf.nodup hr) h,getD_some]

/-- What is left at other positions is older. -/
theorem old (hp : j.first ≤ p ∧ p < j.maxlen)
    (hn : ∀ i < j.txnTags.length + 2, p ≠ j.position i) (hb : k.logAt p = some buf)
    (hm : be32 buf 0 = jbdMagic) : be32 buf 8 < j.seq := by
  by_cases hmap : j.map p = 0
  · rw [logAt_hole hw hk hmap] at hb
    cases hb
  have hold := hr.old p hp.1 hp.2 hmap
  by_cases h0 : p = 0
  · subst h0
    rw [logAt_zero hr hw hk,hf.super_intact hr] at hb
    cases hb
    rw [be32_marked (by omega)] at hm ⊢
    exact hold hm
  · have hnone : lastWrite p j.logWrites = none := lastWrite_none fun w hw he => by
      obtain ⟨i,hi,hp⟩ := hf.mem_key hr (d := w.2) hw
      exact hn i hi (he ▸ hp)
    rw [logAt_pos hr hw hk h0 hmap,hnone] at hb
    cases hb
    simp only [Journal.logged,h0,↓reduceIte] at hold
    exact hold hm

theorem txnIn (ht : j.txnTags ≠ []) :
    TxnIn j.scan k.logAt j.txnDescPos (descriptorBlock j.seq j.blocks)
      (j.txnTags.map fun t => (t.1,j.store.view t.1)) := by
  have hlog := fun {p d} => hf.logAt hr hw hk (p := p) (d := d)
  have hdesc : (j.txnDescPos,descriptorBlock j.seq j.blocks) ∈ j.logWrites := mem_cons_self
  have hcommit : (j.pos,commitBlock j.seq) ∈ j.logWrites := by
    simp [logWrites,hf.revokes]
  have hdata : ∀ t ∈ j.txnTags, (t.2,j.store.view t.1) ∈ j.logWrites := by
    intro t ht
    refine mem_cons_of_mem _ (mem_append_left _ ?_)
    exact mem_map.mpr ⟨t,ht,rfl⟩
  have htags := hr.descriptorTags_eq ht
  have hseq : be32 (descriptorBlock j.seq j.blocks) 8 = j.seq := by
    rw [be32_descriptorBlock (by omega),be32_header.2.2,Nat.mod_eq_of_lt hr.seq]
  have hplace : placeTags j.scan.first j.scan.maxlen
      (nextJournalBlock j.txnDescPos j.scan.first j.scan.maxlen) j.blocks = j.txnTags :=
    hr.collecting.tags.symm
  have hskip : skipBlocks j.scan.first j.scan.maxlen
      (nextJournalBlock j.txnDescPos j.scan.first j.scan.maxlen) j.blocks.length = j.pos := by
    rw [blocks,length_map]
    exact hr.collecting.pos.symm
  have hc : isCommitOf j.seq (commitBlock j.seq) = true := by
    have h := @be32_header jbdCommitBlock j.seq
    rw [Nat.mod_eq_of_lt hr.seq] at h
    obtain ⟨h0,h4,h8⟩ := h
    simp only [isCommitOf,commitBlock,h0,h4,h8,beq_self_eq_true,Bool.true_and,Bool.and_true]
    rfl
  refine ⟨hlog hdesc,?_,?_,?_,?_⟩
  · rw [be32_descriptorBlock (by omega),be32_header.1]
  · rw [hseq]
    exact .refl
  · rw [be32_descriptorBlock (by omega),be32_header.2.1]
    rfl
  · simp only [txnAt,htags,hskip,hlog hcommit,hseq,hc,↓reduceIte,hplace]
    rw [copiesAt_of_all fun t ht => hlog (hdata t ht)]

/-- Whatever the scan writes home is a copy of this transaction: it never takes one of its
data blocks for a record. -/
theorem kept (ht : j.txnTags ≠ []) (hx : x ∈ k.scannedWrites) :
    x ∈ j.txnTags.map fun t => (t.1,j.store.view t.1) := by
  have hin := hf.txnIn hr hw hk ht
  have hlen := hf.length
  have hfree : ∀ m, j.txnTags.length + 2 ≤ m % (j.maxlen - j.first) →
      ∀ i < j.txnTags.length + 2, j.position m ≠ j.position i := by
    intro m hm i hi he
    rw [hr.position_eq_iff,Nat.mod_eq_of_lt (by omega : i < j.maxlen - j.first)] at he
    omega
  have hdesc : ∀ m, m % (j.maxlen - j.first) = 0 → j.position m = j.txnDescPos := fun m hm =>
    (hr.position_eq_iff m 0).mpr (by rw [hm,Nat.zero_mod])
  -- the scan comes to the descriptor and to the positions after the commit record
  have hnext : ∀ p buf, Outside j p → k.logAt p = some buf →
      ¬ (j.scan.startSeq ≤ be32 buf 8 ∧ be32 buf 4 = jbdDescriptorBlock) →
      Outside j (nextJournalBlock p j.scan.first j.scan.maxlen) := by
    rintro p buf ⟨m,rfl,hm | hm⟩ hb hn
    · rw [hdesc m hm,hin.at_] at hb
      cases hb
      exact absurd ⟨hin.sequence,hin.descriptor⟩ hn
    · exact ⟨m + 1,Ready.next_position m,ring_step hm⟩
  have htxn : ∀ p buf copies, Outside j p → TxnIn j.scan k.logAt p buf copies →
      buf = descriptorBlock j.seq j.blocks ∧ p = j.txnDescPos := by
    rintro p buf copies ⟨m,rfl,hm | hm⟩ htx
    · have hb := htx.at_
      rw [hdesc m hm,hin.at_] at hb
      exact ⟨(some.inj hb).symm,hdesc m hm⟩
    · have := hf.old hr hw hk (hr.position_area m) (hfree m hm) htx.at_ htx.magic
      exact absurd htx.sequence (not_le.mpr this)
  rw [scannedWrites_intact hr hw hk (hf.super_intact hr) (hf.mapped 0 (by omega)).1] at hx
  obtain ⟨p,buf,copies,hp,htx,hx⟩ := kept_of_scan (Outside j) hnext (by
    intro p buf copies hp htx
    obtain ⟨rfl,rfl⟩ := htxn p buf copies hp htx
    rw [hr.descriptorTags_eq ht,blocks,length_map]
    refine ⟨j.txnTags.length + 2,?_,?_⟩
    · exact (Ready.skip_position 1 _).trans (congrArg _ (by omega))
    · rcases Nat.lt_or_eq_of_le hlen with h | h
      · exact .inr (Nat.mod_eq_of_lt h).ge
      · exact .inl (h ▸ Nat.mod_self _)) _ _ _ _ ⟨0,rfl,.inl (Nat.zero_mod _)⟩ hx
  obtain ⟨rfl,rfl⟩ := htxn p buf copies hp htx
  rwa [htx.copies_eq,← hin.copies_eq] at hx

variable {t : Nat}

theorem lastWrite (ht : t ∈ j.blocks) : lastWrite t k.scannedWrites = some (j.store.view t) := by
  have hne : j.txnTags ≠ [] := fun h => by simp [blocks,h] at ht
  have hin := hf.txnIn hr hw hk hne
  have harea := hr.area
  obtain ⟨x,hx,rfl⟩ := mem_map.mp ht
  have hmem : (x.1,j.store.view x.1) ∈ k.scannedWrites := by
    rw [scannedWrites_intact hr hw hk (hf.super_intact hr) (hf.mapped 0 (by omega)).1]
    have hmax : j.scan.maxScan = j.scan.maxScan - 1 + 1 := by
      simp only [scan]
      omega
    obtain ⟨rs,hrs⟩ := hin.scan (by omega : 0 < j.scan.maxScan) (j.scan.maxScan - 1)
    rw [hmax,hrs]
    simp only [notRevokedBefore,not_mem_nil,not_false_eq_true,decide_true,filter_true,mem_append]
    exact .inl (mem_map.mpr ⟨x,hx,rfl⟩)
  obtain ⟨d,hd⟩ := lastWrite_isSome (mem_map.mpr ⟨_,hmem,rfl⟩)
  obtain ⟨y,-,hy⟩ := mem_map.mp (hf.kept hr hw hk hne (mem_of_lastWrite hd))
  obtain ⟨h1,h2⟩ := Prod.mk.inj hy
  rw [hd,← h2,h1]

theorem off (ht : j.txnTags ≠ []) : Off k k.scannedWrites := by
  intro x hx p
  obtain ⟨t,ht,rfl⟩ := mem_map.mp (hf.kept hr hw hk ht hx)
  rw [hk.map,hw.map]
  exact (hr.home t.1 (mem_map.mpr ⟨t,ht,rfl⟩)).2.2 p

theorem recovers (ht : t ∈ j.blocks) : (final ext3Recover k).store.view t = j.store.view t := by
  have hne : j.txnTags ≠ [] := fun h => by simp [blocks,h] at ht
  have hout : ∀ p, k.map p ≠ t := by
    rw [hk.map,hw.map]
    exact (hr.home t ht).2.2
  rw [recover_view hk.coherent (hf.off hr hw hk hne) hout,hf.lastWrite hr hw hk ht,getD_some]

end

end Fits

/-- A content that is not a record and tells its block. -/
def marker (t : Nat) : Bytes := put zeroBytes 12 (be32Bytes t)

theorem be32_marker : be32 (marker t) 0 = 0 := by
  unfold marker
  rw [be32_put_other (by simp)]
  rfl

/-- The volume with markers in its tagged blocks and nothing cached. -/
def filled (j : Journal) : Journal :=
  { j with
    store := { j.store with
      cache := none
      disk := fun b => if b ∈ j.blocks then marker b
        else if b = j.map 0 then j.store.view b else j.store.disk b } }

theorem filled_same (hr : j.Ready) : SameJournal j j.filled where
  rest := rfl
  size := rfl
  count := rfl
  logged p := by
    have hb : ∀ q, j.map q ∉ j.blocks := fun q hq => (hr.home _ hq).2.2 q rfl
    by_cases h0 : p = 0
    · simp [Journal.logged,filled,Store.view,h0,hb 0]
    · have hne : j.map p ≠ j.map 0 := fun h =>
        h0 (hr.inj p 0 (fun hz => hr.mapped (h ▸ hz)) h)
      simp [Journal.logged,filled,h0,hb p,hne]

theorem position_mem_tail (hc : j.Collecting) (h1 : 1 ≤ i) (hi : i ≤ j.txnTags.length + 1) :
    j.position i ∈ j.logWrites.tail.map Prod.fst := by
  have hd : (j.txnTags.map fun t => (t.2,j.store.view t.1)).map Prod.fst =
      j.txnTags.map Prod.snd := by
    simp
  simp only [logWrites,tail_cons,map_append,hd,hc.tags_snd]
  rcases Nat.lt_or_eq_of_le hi with hlt | rfl
  · refine mem_append_left _ (mem_map.mpr ⟨i - 1,mem_range.mpr (by omega),?_⟩)
    rw [Nat.sub_add_cancel h1]
  · refine mem_append_right _ ?_
    rw [← hc.pos_eq]
    split <;> simp

section Filled

variable (hr : j.Ready) (hc : j.store.cache = none)
  (hm : ∀ t ∈ j.blocks, j.store.view t = marker t) (hw : Committed j w) (hk : Remounted w k)

theorem not_descriptor_of_mem (hm : ∀ t ∈ j.blocks, j.store.view t = marker t)
    (h : (p,d) ∈ j.logWrites.tail) (hd : be32 d 0 = jbdMagic) : be32 d 4 ≠ jbdDescriptorBlock := by
  rcases mem_logRest h with ⟨t,ht,-,rfl⟩ | ⟨-,-,rfl⟩ | ⟨-,rfl⟩
  · rw [hm t.1 (mem_map.mpr ⟨t,ht,rfl⟩),be32_marker] at hd
    exact absurd hd (by decide)
  · rw [be32_revokeBlock (by omega),be32_header.2.1]
    decide
  · rw [commitBlock,be32_header.2.1]
    decide

theorem commit_of_mem (hm : ∀ t ∈ j.blocks, j.store.view t = marker t) {seq : Nat}
    (h : (p,d) ∈ j.logWrites) (hd : isCommitOf seq d = true) :
    p = if j.txnRevokes = [] then j.pos else j.advanceJournalPos j.pos := by
  simp only [isCommitOf,Bool.and_eq_true,beq_iff_eq] at hd
  obtain ⟨⟨hmagic,htype⟩,-⟩ := hd
  rw [logWrites_eq] at h
  rcases mem_cons.mp h with h | h
  · rw [(Prod.mk.inj h).2,be32_descriptorBlock (by omega),be32_header.2.1] at htype
    exact absurd htype (by decide)
  rcases mem_logRest h with ⟨t,ht,-,rfl⟩ | ⟨-,-,rfl⟩ | ⟨hp,-⟩
  · rw [hm t.1 (mem_map.mpr ⟨t,ht,rfl⟩),be32_marker] at hmagic
    exact absurd hmagic (by decide)
  · rw [be32_revokeBlock (by omega),be32_header.2.1] at htype
    exact absurd htype (by decide)
  · exact hp

include hr hc hm hw hk

section

variable (hz : 0 < j.first ∨ j.txnRevokes = [])
include hz

theorem intact_of_kept
    (hx : x ∈ k.scannedWrites) : lastWrite 0 j.logWrites = none ∧ j.txnDescPos ≠ 0 := by
  have h0 : j.txnDescPos ≠ 0 := fun h => by
    rw [scannedWrites_zero hr hw hk h] at hx
    cases hx
  refine ⟨?_,h0⟩
  cases hl : lastWrite 0 j.logWrites with
  | none => rfl
  | some d =>
    exfalso
    have hs : j.superBefore = d := by simp [superBefore,Store.cached,hc,hl]
    have hd : (0,d) ∈ j.logWrites.tail := by
      rcases mem_cons.mp (logWrites_eq ▸ mem_of_lastWrite hl) with h | h
      · exact absurd (Prod.mk.inj h).1.symm h0
      · exact h
    simp only [scannedWrites,superblock_eq hr hw hk,hs] at hx
    rcases mem_logRest hd with ⟨t,ht,-,rfl⟩ | ⟨hn,hp,-⟩ | ⟨-,rfl⟩
    · rw [hm t.1 (mem_map.mpr ⟨t,ht,rfl⟩),be32_marker] at hx
      simp [jbdMagic] at hx
    · have := (hr.position_area (j.txnTags.length + 1)).1
      rw [← hr.collecting.pos_eq,← hp] at this
      rcases hz with hz | hz
      · omega
      · exact hn hz
    · have hzero : jsbMaxlen (j.marked (commitBlock j.seq)) = 0 := by
        rw [jsbMaxlen,be32_marked (by omega),commitBlock,be32_header_zero (by omega)]
      have hmagic : be32 (commitBlock j.seq) 0 = jbdMagic := be32_header.1
      simp [hmagic,scanOf,hzero,scanLog,notRevokedBefore] at hx

theorem descriptor_of_kept (hx : x ∈ k.scannedWrites) :
    lastWrite j.txnDescPos j.logWrites.tail = none ∧
      ∃ copies, TxnIn j.scan k.logAt j.txnDescPos (descriptorBlock j.seq j.blocks) copies ∧
        x ∈ copies := by
  obtain ⟨hnone,h0⟩ := intact_of_kept hr hc hm hw hk hz hx
  have hs := superBefore_eq hnone
  have harea := hr.area
  rw [scannedWrites_intact hr hw hk hs h0] at hx
  have hnext : ∀ i, nextJournalBlock (j.position i) j.scan.first j.scan.maxlen = j.position (i + 1) :=
    Ready.next_position
  obtain ⟨p,buf,copies,⟨i,rfl⟩,htx,hx⟩ := kept_of_scan (fun p => ∃ i, p = j.position i) (by
      rintro p buf ⟨i,rfl⟩ - -
      exact ⟨i + 1,hnext i⟩)
    (by
      rintro p buf copies ⟨i,rfl⟩ -
      rw [hnext]
      exact ⟨_,Ready.skip_position (i + 1) _⟩) _ _ _ _ ⟨0,rfl⟩ hx
  have hat := htx.at_
  have hmap : j.map (j.position i) ≠ 0 := fun h => by
    rw [logAt_hole hw hk h] at hat
    cases hat
  have hold := hr.old _ (hr.position_area i).1 (hr.position_area i).2 hmap
  -- neither the superblock nor an older record can be a descriptor of this scan
  have hp0 : j.position i ≠ 0 := fun h => by
    rw [h] at hat hold
    rw [logAt_zero hr hw hk,hs] at hat
    cases hat
    have hmagic := htx.magic
    have hseq := htx.sequence
    rw [be32_marked (by omega)] at hmagic hseq
    exact absurd hseq (not_le.mpr (hold hmagic))
  rw [logAt_pos hr hw hk hp0 hmap] at hat
  cases hl : lastWrite (j.position i) j.logWrites with
  | none =>
    rw [hl] at hat
    cases hat
    simp only [Journal.logged,hp0,↓reduceIte] at hold
    exact absurd htx.sequence (not_le.mpr (hold htx.magic))
  | some d =>
    rw [hl] at hat
    cases hat
    rw [logWrites_eq] at hl
    simp only [lastWrite,or_eq_some_iff] at hl
    rcases hl with hl | ⟨hl,hi⟩
    · exact absurd htx.descriptor (not_descriptor_of_mem hm (mem_of_lastWrite hl) htx.magic)
    · split at hi
      · rename_i hpos
        cases hi
        rw [← hpos] at hl htx
        exact ⟨hl,copies,htx,hx⟩
      · cases hi

theorem fits_of_kept (hback : ∀ t ∈ j.blocks, t ∉ j.txnRevokes → (t,marker t) ∈ k.scannedWrites)
    (ht₀ : t₀ ∈ j.blocks) (hn₀ : t₀ ∉ j.txnRevokes) : j.Fits := by
  have hne : j.txnTags ≠ [] := fun h => by simp [blocks,h] at ht₀
  obtain ⟨hfirst,copies,htx,-⟩ := descriptor_of_kept hr hc hm hw hk hz (hback t₀ ht₀ hn₀)
  obtain ⟨hzero,h0⟩ := intact_of_kept hr hc hm hw hk hz (hback t₀ ht₀ hn₀)
  have hkeys := fun {i} => position_mem_tail hr.collecting (i := i)
  have hread : ∀ p, k.logAt p ≠ none → j.map p ≠ 0 := fun p hp h => hp (logAt_hole hw hk h)
  -- the descriptor has not been overwritten
  have harea := hr.area
  have hlen : j.txnTags.length + 2 ≤ j.maxlen - j.first := by
    by_contra hcon
    have hsame : j.position (j.maxlen - j.first) = j.txnDescPos :=
      (hr.position_eq_iff _ 0).mpr (by rw [Nat.mod_self,Nat.zero_mod])
    obtain ⟨d,hd⟩ := lastWrite_isSome (hkeys (i := j.maxlen - j.first) (by omega) (by omega))
    rw [hsame] at hd
    cases hd.symm.trans hfirst
  have hnz : ∀ i < j.txnTags.length + 2, j.position i ≠ 0 := by
    intro i hi hp
    cases i with
    | zero => exact h0 hp
    | succ i =>
      have hmem := hkeys (i := i + 1) (by omega) (by omega)
      rw [hp] at hmem
      obtain ⟨d,hd⟩ := @lastWrite_isSome _ _ _ _ j.logWrites (mem_cons_of_mem _ hmem)
      cases hd.symm.trans hzero
  obtain ⟨commit,hcommit,hseq,hcopies⟩ := htx.unfold
  rw [hr.descriptorTags_eq hne] at hcommit hcopies
  have hpos : k.logAt (j.position (j.txnTags.length + 1)) = some commit := by
    have hl : j.blocks.length = j.txnTags.length := length_map _
    rw [hl] at hcommit
    exact hcommit
  -- the commit record is where the reader expects it
  have hrev : j.txnRevokes = [] := by
    by_contra hn
    have hmap := hread _ (by rw [hpos]; exact some_ne_none _)
    obtain ⟨d,hd⟩ := @lastWrite_isSome _ _ _ _ j.logWrites
      (mem_cons_of_mem _ (hkeys (i := j.txnTags.length + 1) (by omega) (by omega)))
    have hat := logAt_pos hr hw hk (hnz _ (by omega)) hmap
    rw [hd,getD_some,hpos] at hat
    cases hat
    have hp := commit_of_mem hm (mem_of_lastWrite hd) hseq
    rw [if_neg hn] at hp
    have hp' : j.position (j.txnTags.length + 1) = j.position (j.txnTags.length + 2) := by
      refine hp.trans ?_
      rw [← Ready.next_position,← hr.collecting.pos_eq]
      rfl
    rw [hr.position_eq_iff,Nat.mod_eq_of_lt (by omega : j.txnTags.length + 1 < _)] at hp'
    rcases Nat.lt_or_eq_of_le hlen with hl | hl
    · rw [Nat.mod_eq_of_lt hl] at hp'
      omega
    · rw [← hl,Nat.mod_self] at hp'
      omega
  refine ⟨hrev,hlen,fun i hi => ⟨hnz i hi,hread _ ?_⟩⟩
  -- the reader finds a block at each position
  rcases Nat.eq_zero_or_pos i with rfl | h1
  · rw [show j.position 0 = j.txnDescPos from rfl,htx.at_]
    exact some_ne_none _
  rcases Nat.lt_or_eq_of_le (Nat.lt_succ_iff.mp hi) with hlt | rfl
  · have hmem : j.position i ∈ j.txnTags.map Prod.snd := by
      rw [hr.collecting.tags_snd]
      exact mem_map.mpr ⟨i - 1,mem_range.mpr (by omega),by rw [Nat.sub_add_cancel h1]⟩
    obtain ⟨t,ht,hti⟩ := mem_map.mp hmem
    obtain ⟨-,copies',htx',hx⟩ := descriptor_of_kept hr hc hm hw hk hz
      (hback t.1 (mem_map.mpr ⟨t,ht,rfl⟩) (by simp [hrev]))
    rw [htx'.copies_eq,hr.descriptorTags_eq hne] at hx
    have hplace : placeTags j.scan.first j.scan.maxlen (nextJournalBlock
        j.txnDescPos j.scan.first j.scan.maxlen) j.blocks = j.txnTags :=
      hr.collecting.tags.symm
    rw [hplace] at hx
    simp only [copiesAt,mem_filterMap,map_eq_some_iff,Prod.mk.injEq] at hx
    obtain ⟨t',ht',d,hd,he,-⟩ := hx
    have : t' = t := inj_on_of_nodup_map hr.collecting.nodup ht' ht he
    rw [← hti,← this,hd]
    exact some_ne_none _
  · rw [hpos]
    exact some_ne_none _

end

end Filled

/-- What a mount finds after a stop in `w` whose tagged blocks hold something else. -/
def stopped (w : Journal) (blocks : List Nat) : Journal :=
  { w with
    store := { w.store with
      cache := none
      disk := fun b => if b ∈ blocks then fun _ => 1 else w.store.disk b } }

theorem stopped_remounted (h : ∀ t ∈ bs, ∀ p, w.map p ≠ t) : Remounted w (w.stopped bs) where
  hasJournal := rfl
  map := rfl
  size := rfl
  count := rfl
  log p := by
    have : w.map p ∉ bs := fun hp => h _ hp p rfl
    simp [stopped,Store.view,this]
  coherent c hc := by cases hc

theorem Ready.commits (hr : j.Ready) (hz : 0 < j.first ∨ j.txnRevokes = []) (ht : j.txnTags ≠ []) :
    ∃ w, Committed j w := by
  refine commit_spec hr.collecting ht ?_ (hr.valid 0 hr.mapped) ?_
  · intro t ht
    have := hr.home t.1 (mem_map.mpr ⟨t,ht,rfl⟩)
    exact ⟨this.1,this.2.2⟩
  · intro hn he
    have hpos := (hr.position_area (j.txnTags.length + 1)).1
    rw [← hr.collecting.pos_eq,← hr.inj 0 _ hr.mapped he.symm] at hpos
    rcases hz with hz | hz
    · omega
    · exact hn hz

theorem fits_of_roundTrips (hr : j.Ready) (hz : 0 < j.first ∨ j.txnRevokes = []) (h : j.RoundTrips)
    (ht₀ : t₀ ∈ j.blocks) (hn₀ : t₀ ∉ j.txnRevokes) : j.Fits := by
  have hu := filled_same hr
  have hru := hr.same hu
  have hne : j.txnTags ≠ [] := fun h => by simp [blocks,h] at ht₀
  have hm : ∀ t ∈ j.blocks, j.filled.store.view t = marker t := by
    intro t ht
    simp [filled,Store.view,ht]
  obtain ⟨w,hw⟩ := hru.commits hz hne
  have hk : Remounted w (w.stopped j.blocks) := stopped_remounted fun t ht p => by
    rw [hw.map]
    exact (hr.home t ht).2.2 p
  generalize hkd : w.stopped j.blocks = k at hk
  have hkept := fun {x} => descriptor_of_kept hru rfl hm hw hk hz (x := x)
  have hoff : Off k k.scannedWrites := by
    intro x hx p
    obtain ⟨-,copies,htx,hxc⟩ := hkept hx
    have ht := htx.tagged hxc
    rw [hru.descriptorTags_eq hne] at ht
    rw [hk.map,hw.map]
    exact (hr.home x.1 ht).2.2 p
  -- each block that comes back has been written
  have hback : ∀ t ∈ j.blocks, t ∉ j.txnRevokes → (t,marker t) ∈ k.scannedWrites := by
    intro t ht hnr
    have hv := h _ hu k (by rwa [final_of_ok hw.ok]) t ht hnr
    have hout : ∀ p, k.map p ≠ t := by
      rw [hk.map,hw.map]
      exact (hr.home t ht).2.2
    rw [recover_view hk.coherent hoff hout,hm t ht] at hv
    cases hl : lastWrite t k.scannedWrites with
    | none =>
      rw [hl,getD_none,← hkd] at hv
      have := congrFun hv 0
      simp [stopped,Store.view,ht,marker,put,zeroBytes] at this
    | some d =>
      rw [hl,getD_some] at hv
      exact hv ▸ mem_of_lastWrite hl
  have hf := fits_of_kept hru rfl hm hw hk hz hback ht₀ hn₀
  exact ⟨hf.revokes,hf.length,hf.mapped⟩

/-- An empty journal of 16 blocks at block 100. Block 50 holds sevens. -/
def emptyLog : Nat → Bytes
  | 100 => put sampleSuperblock 28 (be32Bytes 0)
  | 50 => fun _ => 7
  | _ => zeroBytes

def tagged50 : Journal := ext3JournalCurrentBlock 50 (mountedLog emptyLog).openTxn

/-- The same transaction revokes block 70, which it does not tag. -/
def revoked70 : Journal := ext3JournalRevokeBlock 70 tagged50

/-- A stop between the commit record of transaction 2 and the mark in the superblock. -/
def unmarkedLog : Nat → Bytes
  | 104 => descriptorBlock 2 [50]
  | 105 => fun _ => 9
  | 106 => commitBlock 2
  | 107 => zeroBytes
  | b => revokedLog b

/-- After recovery block 50 gets sevens and is tagged in the next transaction, again with
number 2. -/
def renumbered50 : Journal :=
  let j := final ext3BeginTxn (final ext3Recover (mountedLog unmarkedLog))
  ext3JournalCurrentBlock 50 { j with store := j.store.writeBlockData 50 fun _ => 7 }

theorem not_roundTrips (hm : (final ext3CommitTxn j).map = sampleMap) (ht : 50 ∈ j.blocks)
    (hn : 50 ∉ j.txnRevokes)
    (hv : (final ext3Recover (stopped (final ext3CommitTxn j) [50])).store.view 50 0 ≠
      j.store.view 50 0) : ¬ RoundTrips j := by
  intro h
  refine hv (congrFun (h j ⟨rfl,rfl,rfl,fun _ => rfl⟩ _ ?_ 50 ht hn) 0)
  apply stopped_remounted
  intro t ht p
  rw [mem_singleton.mp ht,hm]
  exact sampleMap_ne (by decide) (by decide) p

theorem tagged50_ready : tagged50.Ready where
  collecting := (openTxn_collecting rfl).tag 50
  hasJournal := rfl
  super := by decide +kernel
  maxlen := by decide +kernel
  first := by decide +kernel
  mapped := by decide
  valid p hp := by
    have hcount : tagged50.store.blocksCount = 1000 := rfl
    have hmap : tagged50.map p < 1000 := by
      change sampleMap p < 1000
      unfold sampleMap
      split <;> omega
    simp only [Store.isValidBlock,hcount,Bool.and_eq_true,bne_iff_ne,Bool.or_eq_true,beq_iff_eq,
      decide_eq_true_eq]
    exact ⟨hp,.inr hmap⟩
  inj p q hp he := by
    have hp' : sampleMap p ≠ 0 := hp
    have he' : sampleMap p = sampleMap q := he
    unfold sampleMap at hp' he'
    split at hp'
    · rename_i h
      rw [if_pos h] at he'
      split at he' <;> omega
    · exact absurd rfl hp'
  area := by decide
  seq := by decide
  size := by decide
  old p hp hp' _ hm := by
    have hnone : ∀ p < 16, 1 ≤ p → be32 (tagged50.logged p) 0 ≠ jbdMagic := by decide +kernel
    exact absurd hm (hnone p hp' hp)
  home t ht := by
    have ht50 : t = 50 := mem_singleton.mp ht
    subst ht50
    exact ⟨by decide,by decide,sampleMap_ne (by decide) (by decide)⟩

end Journal
end Miku.Ext
