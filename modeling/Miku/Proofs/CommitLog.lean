import Miku.Proofs.LogScan

namespace Miku.Ext
open Lib List Function

namespace BlockCache

variable {c : BlockCache} {b : Nat}

theorem find_stamp : (c.stamp i id).find x = c.find x := by
  unfold stamp find
  generalize c.accessCounter + 1 = t
  induction c.entries generalizing i with
  | nil => simp
  | cons e es ih =>
    cases i with
    | zero =>
      simp only [modify_zero_cons,find?_cons]
      have : CacheEntry.holds x { id e with lastAccess := t } = CacheEntry.holds x e := rfl
      rw [this]
      cases CacheEntry.holds x e <;> rfl
    | succ i =>
      simp only [modify_succ_cons,find?_cons]
      cases CacheEntry.holds x e
      · exact ih
      · rfl

theorem find_get : (c.get b).2.find x = c.find x := by
  unfold get
  split
  · exact find_stamp
  · rfl

theorem find_invalidate (h : x ≠ b) : (c.invalidate b).find x = c.find x := by
  unfold invalidate find
  induction c.entries with
  | nil => rfl
  | cons e es ih =>
    simp only [map_cons,find?_cons]
    by_cases hb : CacheEntry.holds b e = true
    · have hx : CacheEntry.holds x e = false := by
        have := (holds_iff.mp hb).2
        simp [CacheEntry.holds,this,h.symm]
      have hv : CacheEntry.holds x { e with valid := false } = false := rfl
      simpa [hb,hx,hv] using ih
    · cases hx : CacheEntry.holds x e
      · simpa [hb,hx] using ih
      · simp [hb,hx]

end BlockCache

namespace Store

def cached (s : Store) (b : Nat) : Option Bytes := s.cache.bind (·.find b)

end Store

namespace Journal

variable {j k : Journal}

/-- A transaction is open and its tags have the positions after its descriptor. -/
structure Collecting (j : Journal) : Prop where
  active : j.active = true
  txn : j.txnActive = true
  tags : j.txnTags = placeTags j.first j.maxlen (j.advanceJournalPos j.txnDescPos)
    (j.txnTags.map Prod.fst)
  pos : j.pos = skipBlocks j.first j.maxlen (j.advanceJournalPos j.txnDescPos) j.txnTags.length
  nodup : (j.txnTags.map Prod.fst).Nodup
  room : j.txnTags.length ≤ maxTags

theorem skipBlocks_succ {first maxlen : Nat} (p n : Nat) :
    skipBlocks first maxlen p (n + 1) = nextJournalBlock (skipBlocks first maxlen p n) first maxlen := by
  induction n generalizing p with
  | zero => rfl
  | succ n ih => exact ih _

theorem placeTags_append {first maxlen : Nat} (p : Nat) (ts : List Nat) (t : Nat) :
    placeTags first maxlen p (ts ++ [t]) =
      placeTags first maxlen p ts ++ [(t,skipBlocks first maxlen p ts.length)] := by
  induction ts generalizing p with
  | nil => rfl
  | cons a ts ih => simp [placeTags,ih,skipBlocks]

theorem openTxn_collecting (h : j.active = true) : j.openTxn.Collecting where
  active := h
  txn := rfl
  tags := rfl
  pos := rfl
  nodup := nodup_nil
  room := Nat.zero_le _

theorem Collecting.tag (h : j.Collecting) (b : Nat) : (ext3JournalCurrentBlock b j).Collecting := by
  unfold ext3JournalCurrentBlock
  split
  · rename_i hc
    obtain ⟨-,-,hroom,hb⟩ := hc
    have hpos : j.pos = skipBlocks j.first j.maxlen (j.advanceJournalPos j.txnDescPos)
        (j.txnTags.map Prod.fst).length := by
      rw [length_map]
      exact h.pos
    refine ⟨h.active,h.txn,?_,?_,?_,?_⟩
    · have htags := @placeTags_append j.first j.maxlen
        (j.advanceJournalPos j.txnDescPos) (j.txnTags.map Prod.fst) b
      rw [← h.tags,← hpos] at htags
      rw [map_append]
      exact htags.symm
    · have hnext := @skipBlocks_succ j.first j.maxlen
        (j.advanceJournalPos j.txnDescPos) j.txnTags.length
      rw [← h.pos] at hnext
      rw [length_append]
      exact hnext.symm
    · simpa [nodup_append,h.nodup] using fun x y hx he => hb (by
        subst he
        exact List.mem_map.mpr ⟨_,hx,rfl⟩)
    · rw [length_append]
      exact hroom
  · exact h

theorem Collecting.revoke (h : j.Collecting) (b : Nat) :
    (ext3JournalRevokeBlock b j).Collecting := by
  unfold ext3JournalRevokeBlock
  split
  · exact ⟨h.active,h.txn,h.tags,h.pos,h.nodup,h.room⟩
  · exact h

/-- What is done to an open transaction. -/
inductive TxnCall where
  | tag (block : Nat)
  | revoke (block : Nat)

def TxnCall.run (j : Journal) : TxnCall → Journal
  | .tag b => ext3JournalCurrentBlock b j
  | .revoke b => ext3JournalRevokeBlock b j

/-- Whatever is tagged and revoked after a transaction was begun, its tags have the
positions that follow its descriptor. -/
theorem collecting_of_calls (h : j.active = true) (calls : List TxnCall) :
    (calls.foldl TxnCall.run j.openTxn).Collecting := by
  suffices hk : ∀ k : Journal, k.Collecting → (calls.foldl TxnCall.run k).Collecting from
    hk _ (openTxn_collecting h)
  induction calls with
  | nil => exact fun _ hk => hk
  | cons c calls ih =>
    intro k hk
    cases c with
    | tag b => exact ih _ (hk.tag b)
    | revoke b => exact ih _ (hk.revoke b)

/-- The blocks a commit puts into the log, with their positions, in order. -/
def logWrites (j : Journal) : List (Nat × Bytes) :=
  (j.txnDescPos,descriptorBlock j.seq (j.txnTags.map Prod.fst)) ::
    ((j.txnTags.map fun t => (t.2,j.store.view t.1)) ++
      if j.txnRevokes = [] then [(j.pos,commitBlock j.seq)]
      else [(j.pos,revokeBlock j.seq j.txnRevokes),(j.advanceJournalPos j.pos,commitBlock j.seq)])

/-- The writes to positions of the journal file, as writes to blocks. -/
def onDisk (map : Nat → Nat) (ws : List (Nat × Bytes)) : List (Nat × Bytes) :=
  ws.map fun w => (map w.1,w.2)

/-- `k` is `j` after writes past the cache. Those to holes of the journal file may
be left out; they would go to block 0. -/
structure Logged (ws : List (Nat × Bytes)) (j k : Journal) : Prop where
  rest : k = { j with store := k.store }
  size : k.store.blockSize = j.store.blockSize
  count : k.store.blocksCount = j.store.blocksCount
  disk : ∀ b ≠ 0, k.store.disk b = (lastWrite b (onDisk j.map ws)).getD (j.store.disk b)
  cached : k.store.cached = j.store.cached

theorem Logged.map (h : Logged ws j k) : k.map = j.map := by rw [h.rest]

theorem Logged.trans (h : Logged ws j k) (h' : Logged vs k l) : Logged (ws ++ vs) j l where
  rest := by rw [h'.rest,h.rest]
  size := h'.size.trans h.size
  count := h'.count.trans h.count
  disk b hb := by
    rw [h'.disk b hb,h.disk b hb,h.map,onDisk,onDisk,onDisk,map_append,lastWrite_append,
      Option.getD_or]
  cached := h'.cached.trans h.cached

theorem Logged.view (h : Logged ws j k) (hb : b ≠ 0) (ho : ∀ p, j.map p ≠ b) :
    k.store.view b = j.store.view b := by
  have hd : k.store.disk b = j.store.disk b := by
    rw [h.disk b hb,lastWrite_none,Option.getD_none]
    intro w hw
    obtain ⟨x,-,rfl⟩ := List.mem_map.mp hw
    exact ho x.1
  have hc : k.store.cached b = j.store.cached b := congrFun h.cached b
  unfold Store.cached at hc
  rw [Store.view,Store.view,hc,hd]

theorem Logged.write (p : Nat) (d : Bytes) :
    Logged [(p,d)] j { j with store := j.store.writeBlockDirectNocache (j.map p) d } where
  rest := rfl
  size := rfl
  count := rfl
  disk b _ := applyWrites_apply (onDisk j.map [(p,d)]) j.store.disk b
  cached := rfl

theorem readBlock_logged (hb : j.store.isValidBlock b = true) :
    ∃ k, Logged [] j k ∧ readBlock b j = .ok (j.store.view b) k := by
  have hf := Store.readBlockInto_fst (s := j.store) (b := b)
  rw [if_pos hb] at hf
  refine ⟨{ j with store := (j.store.readBlockInto b).2 },⟨rfl,?_,?_,?_,?_⟩,?_⟩
  · simp [Store.readBlockInto,hb]
  · simp [Store.readBlockInto,hb]
  · intro x _
    simp only [Store.readBlockInto,hb,↓reduceIte]
    rfl
  · funext x
    simp only [Store.readBlockInto,hb,↓reduceIte,Store.cached]
    cases j.store.cache with
    | none => rfl
    | some c => exact BlockCache.find_get
  · unfold readBlock
    cases hr : j.store.readBlockInto b with
    | mk r s =>
      rw [hr] at hf
      simp only at hf
      rw [hf]

theorem logBlock_spec {t : Nat × Nat} (hv : j.store.isValidBlock t.1 = true) :
    ∃ k, logBlock t j = .ok () k ∧ Logged [(t.2,j.store.view t.1)] j k := by
  obtain ⟨k,hk,he⟩ := readBlock_logged hv
  refine ⟨_,bind_of_ok he,?_⟩
  by_cases h0 : k.map t.2 = 0
  · simp only [h0,↓reduceIte]
    refine ⟨hk.rest,hk.size,hk.count,fun b hb => ?_,hk.cached⟩
    rw [hk.disk b hb]
    simp [onDisk,lastWrite,← hk.map,h0,hb.symm]
  · simp only [h0,↓reduceIte]
    exact hk.trans (Logged.write _ _)

theorem Logged.views {tags : List (Nat × Nat)} (hk : Logged ws j k)
    (hv : ∀ t ∈ tags, j.store.isValidBlock t.1 = true ∧ ∀ p, j.map p ≠ t.1) :
    (tags.map fun t => (t.2,k.store.view t.1)) = tags.map fun t => (t.2,j.store.view t.1) := by
  apply map_congr_left
  intro x hx
  have hx' := hv x hx
  have h0 : x.1 ≠ 0 := fun h => by simp [h,Store.isValidBlock] at hx'
  rw [hk.view h0 hx'.2]

theorem logBlocks_spec (tags : List (Nat × Nat))
    (hv : ∀ t ∈ tags, j.store.isValidBlock t.1 = true ∧ ∀ p, j.map p ≠ t.1) :
    ∃ k, tags.forM logBlock j = .ok () k ∧
      Logged (tags.map fun t => (t.2,j.store.view t.1)) j k := by
  induction tags generalizing j with
  | nil => exact ⟨j,rfl,rfl,rfl,rfl,fun _ _ => rfl,rfl⟩
  | cons t ts ih =>
    obtain ⟨k,he,hk⟩ := logBlock_spec (hv t mem_cons_self).1
    have hval : ∀ b, k.store.isValidBlock b = j.store.isValidBlock b := fun b => by
      simp [Store.isValidBlock,hk.count]
    obtain ⟨l,he',hl⟩ := ih (j := k) fun x hx => by
      rw [hval,hk.map]
      exact hv x (mem_cons_of_mem _ hx)
    refine ⟨l,(bind_of_ok he).trans he',?_⟩
    rw [hk.views fun x hx => hv x (mem_cons_of_mem _ hx)] at hl
    exact hk.trans hl

/-- The superblock that marks the log as starting with this transaction. -/
def marked (j : Journal) (b : Bytes) : Bytes :=
  put (put b 24 (be32Bytes j.seq)) 28 (be32Bytes j.txnDescPos)

theorem records_spec (hrev : j.txnRevokes ≠ [] → j.map j.pos ≠ j.map 0) :
    ∃ k, k = (j.ext3WriteRevokeBlock).writeCommit ∧
      k.map = j.map ∧ k.hasJournal = j.hasJournal ∧ k.seq = j.seq ∧ k.txnDescPos = j.txnDescPos ∧
      k.store.blockSize = j.store.blockSize ∧ k.store.blocksCount = j.store.blocksCount ∧
      (∀ b, k.store.disk b = (lastWrite b (onDisk j.map
        (if j.txnRevokes = [] then [(j.pos,commitBlock j.seq)]
          else [(j.pos,revokeBlock j.seq j.txnRevokes),
            (j.advanceJournalPos j.pos,commitBlock j.seq)]))).getD (j.store.disk b)) ∧
      k.store.cached (j.map 0) = j.store.cached (j.map 0) := by
  refine ⟨_,rfl,?_⟩
  unfold ext3WriteRevokeBlock
  by_cases hr : j.txnRevokes = []
  · simp only [hr,↓reduceIte]
    refine ⟨rfl,rfl,rfl,rfl,rfl,rfl,fun b => ?_,rfl⟩
    exact applyWrites_apply (onDisk j.map [(j.pos,commitBlock j.seq)]) j.store.disk b
  · simp only [hr,↓reduceIte]
    refine ⟨rfl,rfl,rfl,rfl,rfl,rfl,fun b => ?_,?_⟩
    · exact applyWrites_apply (onDisk j.map [(j.pos,revokeBlock j.seq j.txnRevokes),
        (j.advanceJournalPos j.pos,commitBlock j.seq)]) j.store.disk b
    · simp only [writeCommit,Store.writeBlockBarrierNocache,Store.writeBlockDataDirect,
        Store.writeDisk,Store.cached]
      cases j.store.cache with
      | none => rfl
      | some c => exact BlockCache.find_invalidate (hrev hr).symm

theorem mark_spec (h0 : j.store.isValidBlock (j.map 0) = true) :
    ∃ k, markJournalDirtyFast j = .ok () k ∧ k = { j with store := k.store } ∧
      k.store.blockSize = j.store.blockSize ∧ k.store.blocksCount = j.store.blocksCount ∧
      (∀ b, b ≠ 0 → b ≠ j.map 0 → k.store.disk b = j.store.disk b) ∧
      k.store.disk (j.map 0) = j.marked (j.store.view (j.map 0)) := by
  have hz : j.map 0 ≠ 0 := fun h => by simp [h,Store.isValidBlock] at h0
  obtain ⟨m,hm,he⟩ := readBlock_logged h0
  have hread : readJournalBlockData 0 j = .ok (j.store.view (j.map 0)) m := by
    simp [readJournalBlockData,hz,he]
  refine ⟨_,bind_of_ok hread,?_,hm.size,hm.count,?_,?_⟩
  · simp only
    rw [hm.rest]
  · intro b hb hb0
    rw [← hm.map] at hb0
    exact (update_of_ne hb0 _ _).trans (hm.disk b hb)
  · simp only [Store.writeBlockDataDirect,Store.writeDisk,hm.map,update_self]
    rw [hm.rest]
    rfl

/-- What a commit leaves on the disk, and that it succeeds. -/
structure Committed (j k : Journal) : Prop where
  ok : ext3CommitTxn j = .ok () k
  hasJournal : k.hasJournal = j.hasJournal
  map : k.map = j.map
  size : k.store.blockSize = j.store.blockSize
  count : k.store.blocksCount = j.store.blocksCount
  log : ∀ b, b ≠ 0 → b ≠ j.map 0 →
    k.store.disk b = (lastWrite b (onDisk j.map j.logWrites)).getD (j.store.disk b)
  super : k.store.disk (j.map 0) = j.marked ((j.store.cached (j.map 0)).getD
    ((lastWrite (j.map 0) (onDisk j.map j.logWrites)).getD (j.store.disk (j.map 0))))

theorem commit_spec (hc : j.Collecting) (ht : j.txnTags ≠ [])
    (hv : ∀ t ∈ j.txnTags, j.store.isValidBlock t.1 = true ∧ ∀ p, j.map p ≠ t.1)
    (h0 : j.store.isValidBlock (j.map 0) = true)
    (hrev : j.txnRevokes ≠ [] → j.map j.pos ≠ j.map 0) : ∃ k, Committed j k := by
  have hz : j.map 0 ≠ 0 := fun h => by simp [h,Store.isValidBlock] at h0
  -- the descriptor and the data blocks
  have hd : Logged [(j.txnDescPos,descriptorBlock j.seq (j.txnTags.map Prod.fst))] j
      j.writeDescriptor := Logged.write _ _
  obtain ⟨k,he,hk⟩ := logBlocks_spec (j := j.writeDescriptor) j.txnTags hv
  rw [hd.views hv] at hk
  have hk' := hd.trans hk
  -- the records after them
  have hsame : k = { j with store := k.store } := hk'.rest
  obtain ⟨l,hl,hmap,hhas,hseq,hpos,hsize,hcount,hdisk,hcached⟩ :=
    records_spec (j := k) (by rw [hsame]; exact hrev)
  have hldisk : ∀ b ≠ 0, l.store.disk b =
      (lastWrite b (onDisk j.map j.logWrites)).getD (j.store.disk b) := by
    intro b hb
    rw [hdisk b,hk'.disk b hb,← Option.getD_or,← lastWrite_append,hsame]
    simp only [onDisk,← map_append]
    rfl
  -- the superblock
  have hval : l.store.isValidBlock (l.map 0) = true := by
    rw [hmap,hk'.map]
    simpa [Store.isValidBlock,hcount,hk'.count] using h0
  obtain ⟨m,hmark,hm,hms,hmc,hmdisk,hmsuper⟩ := mark_spec hval
  rw [hl] at hmark
  have hrun : commitTagged j.txnTags j =
      .ok () (closeTxn { m with seq := (m.seq + 1) % 4294967296 }) :=
    (bind_of_ok rfl).trans ((bind_of_ok he).trans ((bind_of_ok rfl).trans ((bind_of_ok rfl).trans
      ((bind_of_ok hmark).trans rfl))))
  refine ⟨closeTxn { m with seq := (m.seq + 1) % 4294967296 },?_,?_,?_,?_,?_,?_,?_⟩
  · simp [ext3CommitTxn,hc.active,hc.txn,ht,hrun]
  · rw [closeTxn,hm,hhas,hsame]
  · rw [closeTxn,hm,hmap,hk'.map]
  · exact hms.trans (hsize.trans hk'.size)
  · exact hmc.trans (hcount.trans hk'.count)
  · intro b hb hb0
    rw [hmap,hk'.map] at hmdisk
    exact (hmdisk b hb hb0).trans (hldisk b hb)
  · rw [hmap,hk'.map] at hmsuper
    refine hmsuper.trans ?_
    have hview : l.store.view (j.map 0) = ((l.store.cached (j.map 0)).getD (l.store.disk (j.map 0))) := rfl
    rw [hview,← hk'.map,hcached,hk'.cached,hk'.map,hldisk _ hz]
    have hks : k.seq = j.seq ∧ k.txnDescPos = j.txnDescPos := by
      rw [hsame]
      exact ⟨rfl,rfl⟩
    simp [marked,hseq,hpos,hks]

variable {first maxlen : Nat}

theorem skipBlocks_ring (hm : maxlen < 4294967296) (i : Nat) : ∀ p, first ≤ p → p < maxlen →
      skipBlocks first maxlen p i = first + (p - first + i) % (maxlen - first) := by
  induction i with
  | zero =>
    intro p hp hp'
    rw [Nat.add_zero,Nat.mod_eq_of_lt (by omega)]
    simp only [skipBlocks]
    omega
  | succ i ih =>
    intro p hp hp'
    simp only [skipBlocks,nextJournalBlock]
    rw [Nat.mod_eq_of_lt (by omega : p + 1 < 4294967296)]
    split
    · rw [ih first .refl (by omega),Nat.sub_self,Nat.zero_add]
      have : p - first + (i + 1) = i + (maxlen - first) := by omega
      rw [this,Nat.add_mod_right]
    · rw [ih (p + 1) (by omega) (by omega)]
      congr 2
      omega

theorem placeTags_snd : (placeTags first maxlen p ts).map Prod.snd =
      (List.range ts.length).map (skipBlocks first maxlen p) := by
  induction ts generalizing p with
  | nil => rfl
  | cons t ts ih =>
    simp only [placeTags,map_cons,ih,length_cons,range_succ_eq_map,List.map_map]
    rfl

/-- Position `i` of a transaction, counted from its descriptor. -/
def position (j : Journal) (i : Nat) : Nat := skipBlocks j.first j.maxlen j.txnDescPos i

theorem Collecting.pos_eq (h : j.Collecting) : j.pos = j.position (j.txnTags.length + 1) := h.pos

theorem Collecting.tags_snd (h : j.Collecting) :
    j.txnTags.map Prod.snd = (List.range j.txnTags.length).map fun i => j.position (i + 1) := by
  have hsnd := congrArg (List.map Prod.snd) h.tags
  rw [placeTags_snd,length_map] at hsnd
  exact hsnd

theorem be32_header {seq : Nat} : be32 (header blocktype seq) 0 = jbdMagic ∧
      be32 (header blocktype seq) 4 = blocktype % 4294967296 ∧
      be32 (header blocktype seq) 8 = seq % 4294967296 := by
  refine ⟨?_,?_,be32_put_self⟩
  · unfold header
    rw [be32_put_other (by simp),be32_put_other (by simp),be32_put_self]
    rfl
  · unfold header
    rw [be32_put_other (by simp),be32_put_self]

variable {seq : Nat}

theorem be32_header_zero (h : 12 ≤ x) : be32 (header blocktype seq) x = 0 := by
  unfold header
  rw [be32_put_other (by simp; omega),be32_put_other (by simp; omega),
    be32_put_other (by simp; omega)]
  rfl

variable {i : Nat}

theorem putTags_below : ∀ (b : Bytes) (o : Nat), i < o →
    putTags b o ts i = b i := by
  induction ts with
  | nil => exact fun _ _ _ => rfl
  | cons t ts ih =>
    intro b o hi
    cases ts with
    | nil =>
      simp only [putTags]
      rw [put_other (by omega),put_other (by omega)]
    | cons t' ts =>
      simp only [putTags]
      rw [ih _ _ (by omega),put_other (by omega),put_other (by omega)]

variable {ts : List Nat}

theorem be32_putTags (h : x + 4 ≤ o) : be32 (putTags b o ts) x = be32 b x :=
  be32_congr fun k hk => putTags_below b o (by omega)

theorem putRevokes_below : ∀ (b : Bytes) (o : Nat), i < o →
    putRevokes b o rs i = b i := by
  induction rs with
  | nil => exact fun _ _ _ => rfl
  | cons r rs ih =>
    intro b o hi
    rw [putRevokes,ih _ _ (by omega),put_other (by omega)]

theorem be32_descriptorBlock (h : x + 4 ≤ 12) :
    be32 (descriptorBlock seq ts) x = be32 (header jbdDescriptorBlock seq) x := be32_putTags h

theorem be32_revokeBlock (h : x + 4 ≤ 12) :
    be32 (revokeBlock seq rs) x = be32 (header jbdRevokeBlock seq) x := by
  unfold revokeBlock
  rw [be32_congr fun k hk => putRevokes_below _ 16 (by omega),be32_put_other (by omega)]

variable {readSize : Nat}

theorem readTags_putTags :
    ∀ (b : Bytes) (o fuel : Nat), ts ≠ [] → (∀ t ∈ ts, t < 4294967296) →
      o + 8 * ts.length ≤ readSize → ts.length ≤ fuel →
      (readTags (putTags b o ts) readSize fuel o).map Prod.fst = ts := by
  induction ts with
  | nil => exact fun _ _ _ h => absurd rfl h
  | cons t ts ih =>
    intro b o fuel _ hlt ho hf
    simp only [length_cons] at ho hf
    obtain ⟨fuel,rfl⟩ : ∃ f, fuel = f + 1 := ⟨fuel - 1,by omega⟩
    have ht : t % 4294967296 = t := Nat.mod_eq_of_lt (hlt t mem_cons_self)
    have hroom : ¬ readSize < o + 8 := by omega
    cases ts with
    | nil =>
      have hblock : be32 (putTags b o [t]) o = t := by
        rw [putTags,be32_put_other (by omega),be32_put_self,ht]
      have hflags : be32 (putTags b o [t]) (o + 4) = 10 := by
        rw [putTags,be32_put_self]
        rfl
      simp [readTags,hroom,hblock,hflags,jbdFlagLastTag]
    | cons t' ts =>
      have hblock : be32 (putTags b o (t :: t' :: ts)) o = t := by
        simp only [putTags]
        rw [be32_putTags (by omega),be32_put_other (by omega),be32_put_self,ht]
      have hflags : be32 (putTags b o (t :: t' :: ts)) (o + 4) = 2 := by
        simp only [putTags]
        rw [be32_putTags (by omega),be32_put_self]
        rfl
      have hrest := ih (put (put b o (be32Bytes t)) (o + 4) (be32Bytes jbdFlagSameUuid)) (o + 8) fuel
        (by simp) (fun x hx => hlt x (mem_cons_of_mem _ hx)) (by simp at ho ⊢; omega) (by omega)
      simp only [readTags,hroom,↓reduceIte,hblock,hflags,jbdFlagLastTag,jbdFlagSameUuid,
        map_cons,List.cons.injEq,true_and]
      exact hrest

theorem descriptorTags_descriptorBlock (hne : ts ≠ [])
    (hlt : ∀ t ∈ ts, t < 4294967296) (hn : ts.length ≤ maxTags) (hr : 1024 ≤ readSize) :
    descriptorTags (descriptorBlock seq ts) readSize = ts := by
  have hn' : ts.length ≤ 64 := hn
  unfold descriptorTags descriptorBlock
  rw [map_take,readTags_putTags _ _ _ hne hlt (by omega) (by omega),take_of_length_le hn]

/-- `k` is a volume with the same log as `j`; its home blocks may hold anything. -/
structure SameLog (j k : Journal) : Prop where
  rest : k = { j with store := k.store }
  size : k.store.blockSize = j.store.blockSize
  log : k.logAt = j.logAt
  coherent : k.store.Coherent

theorem SameLog.scannedWrites (h : SameLog j k) : k.scannedWrites = j.scannedWrites := by
  have hs : k.superblock = j.superblock := by
    have hj : k.hasJournal = j.hasJournal := by rw [h.rest]
    simp only [superblock,h.log,hj]
  simp only [Journal.scannedWrites,hs,h.log,h.size]

theorem SameLog.map (h : SameLog j k) : k.map = j.map := by rw [h.rest]

/-- Any home block may hold anything. -/
theorem SameLog.fill (hc : j.store.Coherent) (hb : ∀ p, j.map p ≠ b) (d : Bytes) :
    SameLog j { j with store := j.store.writeBlockData b d } ∧
      (j.store.writeBlockData b d).view b = d := by
  obtain ⟨hw,hco⟩ := Store.writeBlockData_spec (b := b) (d := d) hc
  have hf : Follows [(b,d)] j { j with store := j.store.writeBlockData b d } :=
    ⟨rfl,hw.size,hw.count,hw.view,hco⟩
  have ho : Off j [(b,d)] := by
    intro w hw p
    rw [List.mem_singleton.mp hw]
    exact hb p
  exact ⟨⟨rfl,hw.size,hf.logAt ho,hco⟩,by rw [hw.view,update_self]⟩

/-- A journal file of 16 blocks at block 100. -/
def sampleMap (p : Nat) : Nat := if p < 16 then 100 + p else 0

def sampleSuperblock : Bytes :=
  put (put (put (put (header 4 0) 16 (be32Bytes 16)) 20 (be32Bytes 1)) 24 (be32Bytes 1)) 28
    (be32Bytes 1)

/-- Transaction 1 logs block 50. Transaction 2 revokes block 50 and logs block 60. -/
def revokedLog : Nat → Bytes
  | 100 => sampleSuperblock
  | 101 => descriptorBlock 1 [50]
  | 102 => fun _ => 7
  | 103 => commitBlock 1
  | 104 => revokeBlock 2 [50]
  | 105 => descriptorBlock 2 [60]
  | 106 => fun _ => 8
  | 107 => commitBlock 2
  | _ => zeroBytes

def mountedLog (disk : Nat → Bytes) : Journal where
  store := ⟨1024,1000,some (BlockCache.new 256),disk⟩
  hasJournal := true
  map := sampleMap
  seq := 1
  pos := 1
  maxlen := 16
  first := 1
  active := true
  txnActive := false
  txnDescPos := 0
  txnTags := []
  txnRevokes := []

theorem mountedLog_coherent (disk : Nat → Bytes) : (mountedLog disk).store.Coherent := by
  intro c hc
  cases hc
  exact BlockCache.new_coherent (by decide)

theorem sampleMap_ne (h0 : b ≠ 0) (hb : b < 100) (p : Nat) : sampleMap p ≠ b := by
  unfold sampleMap
  split <;> omega

/-- Recovery that was cut off may start again: whatever its home writes have left in their
blocks, the result is the same. -/
theorem recover_restartable (hc : j.store.Coherent) (ho : Off j j.scannedWrites) (hk : SameLog j k)
    (hv : ∀ b ∉ j.scannedWrites.map Prod.fst, k.store.view b = j.store.view b)
    (hb : ∀ p, j.map p ≠ b) :
    (final ext3Recover k).store.view b = (final ext3Recover j).store.view b := by
  have hok : Off k k.scannedWrites := by simpa only [Off,hk.scannedWrites,hk.map] using ho
  rw [recover_view hk.coherent hok (hk.map ▸ hb),recover_view hc ho hb,hk.scannedWrites]
  by_cases h : b ∈ j.scannedWrites.map Prod.fst
  · obtain ⟨d,hd⟩ := lastWrite_isSome h
    rw [hd]
    rfl
  · rw [hv b h]

/-- Block 60 was torn by the first recovery. -/
theorem recover_restartable_torn : let j := mountedLog revokedLog
    (final ext3Recover { j with store := j.store.writeBlockData 60 zeroBytes }).store.view 60 =
      (final ext3Recover j).store.view 60 := by
  have hc := mountedLog_coherent revokedLog
  have hne := @sampleMap_ne 60 (by decide) (by decide)
  have hin : ∀ w ∈ (mountedLog revokedLog).scannedWrites, w.1 ≠ 0 ∧ w.1 < 100 := by decide +kernel
  have hmem : 60 ∈ (mountedLog revokedLog).scannedWrites.map Prod.fst := by decide +kernel
  refine recover_restartable hc (fun w h => sampleMap_ne (hin w h).1 (hin w h).2)
    (SameLog.fill hc hne _).1 (fun b hb => ?_) hne
  rw [(Store.writeBlockData_spec hc).1.view,update_of_ne (ne_of_mem_of_not_mem hmem hb).symm]

end Journal
end Miku.Ext
