import Miku.Ext.Store

namespace Miku.Ext
open Lib

def jbdMagic : Nat := 0xC03B3998

def jbdDescriptorBlock : Nat := 1
def jbdCommitBlock : Nat := 2
def jbdRevokeBlock : Nat := 5

def jbdFlagSameUuid : Nat := 2
def jbdFlagLastTag : Nat := 8

def maxTags : Nat := 64
def maxRevokes : Nat := 128

/-- The journal part of a mounted filesystem. `map` is the block map of the journal
inode, which is cached and does not change: 0 stands for a hole. -/
structure Journal where
  store : Store
  hasJournal : Bool
  map : Nat → Nat
  seq : Nat
  pos : Nat
  maxlen : Nat
  first : Nat
  active : Bool
  txnActive : Bool
  txnDescPos : Nat
  /-- the home block and the journal position of each tag -/
  txnTags : List (Nat × Nat)
  txnRevokes : List Nat

abbrev JournalM := EStateM FsError Journal

namespace Journal

def readBlock (b : Nat) : JournalM Bytes := fun j =>
  match j.store.readBlockInto b with
  | (.ok d,s) => .ok d { j with store := s }
  | (.error e,s) => .error e { j with store := s }

def readJournalBlockData (p : Nat) : JournalM Bytes := fun j =>
  if j.map p = 0 then .error .corruptedFs j else readBlock (j.map p) j

def jsbMaxlen (b : Bytes) : Nat := be32 b 16
def jsbFirst (b : Bytes) : Nat := be32 b 20
def jsbStartSequence (b : Bytes) : Nat := be32 b 24
def jsbStart (b : Bytes) : Nat := be32 b 28

def readJournalSuperblock : JournalM Bytes := fun j =>
  if j.hasJournal then
    match readJournalBlockData 0 j with
    | .ok b j => if be32 b 0 = jbdMagic then .ok b j else .error .corruptedFs j
    | .error e j => .error e j
  else .error .noJournal j

/-- Record that the log starts with the transaction just written. -/
def markJournalDirtyFast : JournalM Unit := do
  let buf ← readJournalBlockData 0
  modify fun j =>
    let buf := put (put buf 24 (be32Bytes j.seq)) 28 (be32Bytes j.txnDescPos)
    { j with store := j.store.writeBlockDataDirect (j.map 0) buf }

def cleaned (buf : Bytes) : Bytes :=
  put (put buf 28 (be32Bytes 0)) 24 (be32Bytes ((be32 buf 24 + 1) % 4294967296))

def ext3CleanJournal : JournalM Unit := do
  let buf ← readJournalSuperblock
  modify fun j => { j with
    store := j.store.writeBlockData (j.map 0) (cleaned buf),
    pos := j.first,
    seq := (be32 buf 24 + 1) % 4294967296 }

def nextJournalBlock (current first maxlen : Nat) : Nat :=
  if maxlen ≤ (current + 1) % 4294967296 then first else (current + 1) % 4294967296

def advanceJournalPos (j : Journal) (p : Nat) : Nat := nextJournalBlock p j.first j.maxlen

def used (j : Journal) : Nat :=
  if j.first ≤ j.pos then j.pos - j.first else j.maxlen - j.first + j.pos

/-- A log that is three quarters full is emptied. The superblock and the group
descriptors, which `sync` also writes, are not part of this state. -/
def journalCheckpointIfNeeded : JournalM Unit := fun j =>
  if j.active ∧ j.maxlen * 3 % 4294967296 / 4 < j.used then
    ext3CleanJournal { j with store := j.store.syncDirtyBlocks }
  else .ok () j

def openTxn (j : Journal) : Journal :=
  { j with txnActive := true, txnDescPos := j.pos, pos := j.advanceJournalPos j.pos,
           txnTags := [], txnRevokes := [] }

def ext3BeginTxn : JournalM Unit := fun j =>
  if j.active ∧ ¬ j.txnActive then (do journalCheckpointIfNeeded; modify openTxn) j else .ok () j

/-- Tag a block. The array of tags is full at 64; a block is tagged once. -/
def ext3JournalCurrentBlock (fsBlock : Nat) (j : Journal) : Journal :=
  if j.active ∧ j.txnActive ∧ j.txnTags.length < maxTags ∧ fsBlock ∉ j.txnTags.map Prod.fst then
    { j with txnTags := j.txnTags ++ [(fsBlock,j.pos)], pos := j.advanceJournalPos j.pos }
  else j

def ext3JournalRevokeBlock (fsBlock : Nat) (j : Journal) : Journal :=
  if j.active ∧ j.txnActive ∧ j.txnRevokes.length < maxRevokes ∧ fsBlock ∉ j.txnRevokes then
    { j with txnRevokes := j.txnRevokes ++ [fsBlock] }
  else j

def header (blocktype seq : Nat) : Bytes :=
  put (put (put zeroBytes 0 (be32Bytes jbdMagic)) 4 (be32Bytes blocktype)) 8 (be32Bytes seq)

/-- The tags of a descriptor from offset `o` on; the last one is marked. -/
def putTags (b : Bytes) (o : Nat) : List Nat → Bytes
  | [] => b
  | [t] => put (put b o (be32Bytes t)) (o + 4) (be32Bytes (jbdFlagSameUuid + jbdFlagLastTag))
  | t :: ts => putTags (put (put b o (be32Bytes t)) (o + 4) (be32Bytes jbdFlagSameUuid)) (o + 8) ts

def descriptorBlock (seq : Nat) (tags : List Nat) : Bytes :=
  putTags (header jbdDescriptorBlock seq) 12 tags

def putRevokes (b : Bytes) (o : Nat) : List Nat → Bytes
  | [] => b
  | r :: rs => putRevokes (put b o (be32Bytes r)) (o + 4) rs

def revokeBlock (seq : Nat) (revokes : List Nat) : Bytes :=
  putRevokes (put (header jbdRevokeBlock seq) 12 (be32Bytes (16 + revokes.length * 4))) 16 revokes

def commitBlock (seq : Nat) : Bytes := header jbdCommitBlock seq

/-- Copy a tagged block into the log. A hole in the journal file is passed over. -/
def logBlock (tag : Nat × Nat) : JournalM Unit := do
  let buf ← readBlock tag.1
  modify fun j =>
    if j.map tag.2 = 0 then j
    else { j with store := j.store.writeBlockDirectNocache (j.map tag.2) buf }

def writeDescriptor (j : Journal) : Journal :=
  { j with
    store := j.store.writeBlockDirectNocache (j.map j.txnDescPos)
      (descriptorBlock j.seq (j.txnTags.map Prod.fst)) }

def ext3WriteRevokeBlock (j : Journal) : Journal :=
  if j.txnRevokes = [] then j
  else { j with
    store := j.store.writeBlockDataDirect (j.map j.pos) (revokeBlock j.seq j.txnRevokes),
    pos := j.advanceJournalPos j.pos,
    txnRevokes := [] }

def writeCommit (j : Journal) : Journal :=
  { j with store := j.store.writeBlockBarrierNocache (j.map j.pos) (commitBlock j.seq),
           pos := j.advanceJournalPos j.pos }

def closeTxn (j : Journal) : Journal :=
  { j with txnActive := false, txnTags := [], txnRevokes := [] }

/-- A transaction with at least one tag. -/
def commitTagged (tags : List (Nat × Nat)) : JournalM Unit := do
  modify writeDescriptor
  tags.forM logBlock
  modify ext3WriteRevokeBlock
  modify writeCommit
  markJournalDirtyFast
  modify fun j => closeTxn { j with seq := (j.seq + 1) % 4294967296 }

def ext3CommitTxn : JournalM Unit := fun j =>
  if j.active ∧ j.txnActive then
    if j.txnTags = [] then .ok () j.closeTxn else commitTagged j.txnTags j
  else .ok () j

/-- A block of the log, for a caller that only asks whether it could be read. -/
def tryRead (p : Nat) (j : Journal) : Option Bytes × Journal :=
  match readJournalBlockData p j with
  | .ok d j => (some d,j)
  | .error _ j => (none,j)

/-- The block numbers of a revoke record, as far as they fit the block. -/
def revokeEntries (buf : Bytes) (readSize : Nat) : List Nat :=
  (List.range ((min (be32 buf 12) readSize - 16) / 4)).map fun k => be32 buf (16 + 4 * k)

/-- The tags of a descriptor: block number and flags, up to the marked one. A tag
without the same-uuid flag is followed by 16 bytes. -/
def readTags (buf : Bytes) (readSize : Nat) : Nat → Nat → List (Nat × Nat)
  | 0, _ => []
  | fuel + 1, o =>
    if readSize < o + 8 then []
    else
      let flags := be32 buf (o + 4)
      (be32 buf o,flags) ::
        if flags / jbdFlagLastTag % 2 = 1 then []
        else readTags buf readSize fuel (if flags / jbdFlagSameUuid % 2 = 1 then o + 8 else o + 24)

def descriptorTags (buf : Bytes) (readSize : Nat) : List Nat :=
  ((readTags buf readSize readSize 12).take maxTags).map Prod.fst

/-- Give the tags the journal positions that follow `p`. -/
def placeTags (first maxlen : Nat) : Nat → List Nat → List (Nat × Nat)
  | _, [] => []
  | p, t :: ts => (t,p) :: placeTags first maxlen (nextJournalBlock p first maxlen) ts

def skipBlocks (first maxlen : Nat) : Nat → Nat → Nat
  | p, 0 => p
  | p, n + 1 => skipBlocks first maxlen (nextJournalBlock p first maxlen) n

def isCommitOf (seq : Nat) (buf : Bytes) : Bool :=
  be32 buf 0 == jbdMagic && be32 buf 4 == jbdCommitBlock && be32 buf 8 == seq

/-- The count of replayed blocks is carried along. -/
def replayTag (revoked : List Nat) (r : Nat × Journal) (tag : Nat × Nat) : Nat × Journal :=
  if tag.1 ∈ revoked then r
  else
    match tryRead tag.2 r.2 with
    | (none,j) => (r.1,j)
    | (some data,j) => (r.1 + 1,{ j with store := j.store.writeBlockData tag.1 data })

/-- What the scan does not change. -/
structure Scan where
  first : Nat
  maxlen : Nat
  startSeq : Nat
  readSize : Nat
  maxScan : Nat

/-- The replay of the descriptor found at `block`, or `none` if its commit record
does not follow its data. -/
def replayTxn (c : Scan) (block : Nat) (buf : Bytes) (revoked : List Nat) (r : Nat × Journal) :
    Option Nat × Journal :=
  let tags := descriptorTags buf c.readSize
  let data := nextJournalBlock block c.first c.maxlen
  match tryRead (skipBlocks c.first c.maxlen data tags.length) r.2 with
  | (none,j) => (none,j)
  | (some commit,j) =>
    if isCommitOf (be32 buf 8) commit then
      let (n,j) := (placeTags c.first c.maxlen data tags).foldl (replayTag revoked) (r.1,j)
      (some n,j)
    else (none,j)

/-- The scan of the log. Each round passes over at least one block, so `fuel` is
what is left of `maxScan`. Nothing in it stops recovery with an error. -/
def recoverLoop (c : Scan) : Nat → Nat → Nat → List Nat → Nat × Journal → Nat × Journal
  | 0, _, _, _, r => r
  | fuel + 1, block, scanned, revoked, (n,j) =>
    if c.maxScan ≤ scanned then (n,j)
    else
      match tryRead block j with
      | (none,j) => (n,j)
      | (some buf,j) =>
        let next := nextJournalBlock block c.first c.maxlen
        if be32 buf 0 ≠ jbdMagic then (n,j)
        else if be32 buf 8 < c.startSeq then recoverLoop c fuel next (scanned + 1) revoked (n,j)
        else if be32 buf 4 = jbdRevokeBlock then
          recoverLoop c fuel next (scanned + 1)
            ((revoked ++ revokeEntries buf c.readSize).take maxRevokes) (n,j)
        else if be32 buf 4 ≠ jbdDescriptorBlock then
          recoverLoop c fuel next (scanned + 1) revoked (n,j)
        else
          match replayTxn c block buf revoked (n,j) with
          | (none,j) => (n,j)
          | (some n,j) =>
            let k := (descriptorTags buf c.readSize).length
            recoverLoop c fuel (skipBlocks c.first c.maxlen next (k + 1)) (scanned + k + 2) revoked
              (n,j)

def scanOf (blockSize : Nat) (jsb : Bytes) : Scan where
  first := jsbFirst jsb
  maxlen := jsbMaxlen jsb
  startSeq := jsbStartSequence jsb
  readSize := min blockSize 4096
  maxScan := min (jsbMaxlen jsb) 512

def ext3Recover : JournalM Nat := fun j =>
  match readJournalSuperblock j with
  | .error e j => .error e j
  | .ok jsb j =>
    if jsbStart jsb = 0 then .ok 0 j
    else
      let c := scanOf j.store.blockSize jsb
      let (replayed,j) := recoverLoop c c.maxScan (jsbStart jsb) 0 [] (0,j)
      match ext3CleanJournal j with
      | .error e j => .error e j
      | .ok _ j => .ok replayed j

end Journal
end Miku.Ext
