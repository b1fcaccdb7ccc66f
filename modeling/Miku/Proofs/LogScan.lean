import Miku.Lib.Wp
import Miku.Lib.Writes
import Miku.Ext.Journal
import Miku.Proofs.StoreView

namespace Miku.Ext
open Lib List

namespace Journal

/-- The block at a position of the log, if it can be read. -/
def logAt (j : Journal) (p : Nat) : Option Bytes :=
  if j.map p ≠ 0 ∧ j.store.isValidBlock (j.map p) then some (j.store.view (j.map p)) else none

/-- The logged copies that the tags name. -/
def copiesAt (log : Nat → Option Bytes) (tags : List (Nat × Nat)) : List (Nat × Bytes) :=
  tags.filterMap fun t => (log t.2).map fun d => (t.1,d)

/-- What the linear scan of the log comes across. -/
inductive LogRecord where
  | revoke (blocks : List Nat)
  | txn (copies : List (Nat × Bytes))

/-- The copies of the descriptor in `buf`, if its commit record follows them. -/
def txnAt (c : Scan) (log : Nat → Option Bytes) (block : Nat) (buf : Bytes) :
    Option (List (Nat × Bytes)) :=
  let tags := descriptorTags buf c.readSize
  let data := nextJournalBlock block c.first c.maxlen
  match log (skipBlocks c.first c.maxlen data tags.length) with
  | none => none
  | some commit =>
    if isCommitOf (be32 buf 8) commit then some (copiesAt log (placeTags c.first c.maxlen data tags))
    else none

def scanLog (c : Scan) (log : Nat → Option Bytes) : Nat → Nat → Nat → List LogRecord
  | 0, _, _ => []
  | fuel + 1, block, scanned =>
    if c.maxScan ≤ scanned then []
    else
      match log block with
      | none => []
      | some buf =>
        let next := nextJournalBlock block c.first c.maxlen
        if be32 buf 0 ≠ jbdMagic then []
        else if be32 buf 8 < c.startSeq then scanLog c log fuel next (scanned + 1)
        else if be32 buf 4 = jbdRevokeBlock then
          .revoke (revokeEntries buf c.readSize) :: scanLog c log fuel next (scanned + 1)
        else if be32 buf 4 ≠ jbdDescriptorBlock then scanLog c log fuel next (scanned + 1)
        else
          match txnAt c log block buf with
          | none => []
          | some copies =>
            let n := (descriptorTags buf c.readSize).length
            .txn copies ::
              scanLog c log fuel (skipBlocks c.first c.maxlen next (n + 1)) (scanned + n + 2)

/-- The copies that no revoke record before them names, with room for 128 revoked
blocks. -/
def notRevokedBefore : List Nat → List LogRecord → List (Nat × Bytes)
  | _, [] => []
  | revoked, .revoke blocks :: rs => notRevokedBefore ((revoked ++ blocks).take maxRevokes) rs
  | revoked, .txn copies :: rs =>
    copies.filter (fun w => w.1 ∉ revoked) ++ notRevokedBefore revoked rs

/-- A transaction that the scan accepts at position `p`. -/
structure TxnIn (c : Scan) (log : Nat → Option Bytes) (p : Nat) (buf : Bytes)
    (copies : List (Nat × Bytes)) : Prop where
  at_ : log p = some buf
  magic : be32 buf 0 = jbdMagic
  sequence : c.startSeq ≤ be32 buf 8
  descriptor : be32 buf 4 = jbdDescriptorBlock
  committed : txnAt c log p buf = some copies

/-- Every copy the scan keeps is one of a transaction it accepts, at a position it
can come to: `A` holds where it starts, and at each place it moves on to. -/
theorem kept_of_scan {c : Scan} {log : Nat → Option Bytes} (A : Nat → Prop)
    (hnext : ∀ p buf, A p → log p = some buf →
      ¬ (c.startSeq ≤ be32 buf 8 ∧ be32 buf 4 = jbdDescriptorBlock) →
      A (nextJournalBlock p c.first c.maxlen))
    (htxn : ∀ p buf copies, A p → TxnIn c log p buf copies →
      A (skipBlocks c.first c.maxlen (nextJournalBlock p c.first c.maxlen)
        ((descriptorTags buf c.readSize).length + 1))) (fuel : Nat) :
    ∀ (block scanned : Nat) (revoked : List Nat), A block →
      w ∈ notRevokedBefore revoked (scanLog c log fuel block scanned) →
      ∃ p buf copies, A p ∧ TxnIn c log p buf copies ∧ w ∈ copies := by
  induction fuel with
  | zero => simp [scanLog,notRevokedBefore]
  | succ fuel ih =>
    intro block scanned revoked hA h
    unfold scanLog at h
    split at h
    · simp [notRevokedBefore] at h
    cases hb : log block with
    | none => simp [hb,notRevokedBefore] at h
    | some buf =>
      simp only [hb] at h
      split at h
      · simp [notRevokedBefore] at h
      rename_i hm
      split at h
      · rename_i hq
        exact ih _ _ _ (hnext block buf hA hb fun hc => absurd hc.1 (Nat.not_le.mpr hq)) h
      rename_i hq
      split at h
      · rename_i hr
        have hA' := hnext block buf hA hb fun hc => by simp [hr,jbdRevokeBlock,jbdDescriptorBlock] at hc
        exact ih _ _ _ hA' h
      split at h
      · rename_i hd
        exact ih _ _ _ (hnext block buf hA hb fun hc => hd hc.2) h
      rename_i hd
      cases ht : txnAt c log block buf with
      | none => simp [ht,notRevokedBefore] at h
      | some copies =>
        have htx : TxnIn c log block buf copies :=
          ⟨hb,by simpa using hm,Nat.not_lt.mp hq,by simpa using hd,ht⟩
        simp only [ht,notRevokedBefore,mem_append,mem_filter] at h
        rcases h with ⟨h,-⟩ | h
        · exact ⟨block,buf,copies,hA,htx,h⟩
        · exact ih _ _ _ (htxn block buf copies hA htx) h

theorem mem_placeTags {first maxlen : Nat} {tags : List Nat} {t : Nat × Nat} :
    ∀ {p : Nat}, t ∈ placeTags first maxlen p tags → t.1 ∈ tags := by
  induction tags with
  | nil => simp [placeTags]
  | cons a tags ih =>
    intro p h
    simp only [placeTags,mem_cons] at h
    rcases h with rfl | h
    · exact mem_cons_self
    · exact mem_cons_of_mem _ (ih h)

namespace TxnIn

variable {log : Nat → Option Bytes} {p : Nat}

section

variable (h : TxnIn c log p buf copies)
include h

/-- Its commit record follows its data, and its copies are the readable ones that
its descriptor tags. -/
theorem unfold : ∃ commit, log (skipBlocks c.first c.maxlen (nextJournalBlock p c.first c.maxlen)
        (descriptorTags buf c.readSize).length) = some commit ∧
      isCommitOf (be32 buf 8) commit = true ∧
      copies = copiesAt log (placeTags c.first c.maxlen (nextJournalBlock p c.first c.maxlen)
        (descriptorTags buf c.readSize)) := by
  have ht := h.committed
  simp only [txnAt] at ht
  split at ht
  · simp at ht
  rename_i commit hcommit
  split at ht
  · rename_i hc
    exact ⟨commit,hcommit,hc,(Option.some.inj ht).symm⟩
  · simp at ht

theorem copies_eq :
    copies = copiesAt log (placeTags c.first c.maxlen (nextJournalBlock p c.first c.maxlen)
      (descriptorTags buf c.readSize)) := by
  obtain ⟨-,-,-,hc⟩ := h.unfold
  exact hc

theorem tagged {w : Nat × Bytes} (hw : w ∈ copies) : w.1 ∈ descriptorTags buf c.readSize := by
  rw [h.copies_eq] at hw
  simp only [copiesAt,mem_filterMap,Option.map_eq_some_iff] at hw
  obtain ⟨t,htag,d,-,rfl⟩ := hw
  exact mem_placeTags htag

theorem scan (hs : scanned < c.maxScan) (fuel : Nat) :
    ∃ rs, scanLog c log (fuel + 1) p scanned = .txn copies :: rs := by
  rw [scanLog]
  simp only [Nat.not_le.mpr hs,↓reduceIte,h.at_,h.magic,ne_eq,not_true_eq_false,
    Nat.not_lt.mpr h.sequence,h.descriptor,h.committed]
  exact ⟨_,rfl⟩

end

end TxnIn

/-- The journal superblock, if recovery accepts it. -/
def superblock (j : Journal) : Option Bytes :=
  if j.hasJournal then (j.logAt 0).filter fun b => be32 b 0 == jbdMagic else none

/-- What recovery writes home, in order. -/
def scannedWrites (j : Journal) : List (Nat × Bytes) :=
  match j.superblock with
  | none => []
  | some jsb =>
    if jsbStart jsb = 0 then []
    else
      let c := scanOf j.store.blockSize jsb
      notRevokedBefore [] (scanLog c j.logAt c.maxScan (jsbStart jsb) 0)

/-- `k` is `j` after the home writes `ws`. -/
structure Follows (ws : List (Nat × Bytes)) (j k : Journal) : Prop where
  rest : k = { j with store := k.store }
  size : k.store.blockSize = j.store.blockSize
  count : k.store.blocksCount = j.store.blocksCount
  view : k.store.view = applyWrites ws j.store.view
  coherent : k.store.Coherent

/-- None of the writes hits the journal file. -/
def Off (j : Journal) (ws : List (Nat × Bytes)) : Prop := ∀ w ∈ ws, ∀ p, j.map p ≠ w.1

variable {j : Journal}

theorem Follows.of_same (hs : Store.Same j.store s) (hc : s.Coherent) :
    Follows [] j { j with store := s } := ⟨rfl,hs.size,hs.count,hs.view,hc⟩

theorem Follows.trans (h : Follows ws j k) (h' : Follows vs k l) : Follows (ws ++ vs) j l where
  rest := by rw [h'.rest,h.rest]
  size := h'.size.trans h.size
  count := h'.count.trans h.count
  view := by rw [h'.view,h.view,applyWrites_append]
  coherent := h'.coherent

theorem Follows.map (h : Follows ws j k) : k.map = j.map := by rw [h.rest]

theorem Follows.logAt (h : Follows ws j k) (ho : Off j ws) : k.logAt = j.logAt := by
  funext p
  have hv : k.store.view (j.map p) = j.store.view (j.map p) := by
    rw [h.view,applyWrites_apply,lastWrite_none fun w hw => (ho w hw p).symm,Option.getD_none]
  have hb : k.store.isValidBlock (j.map p) = j.store.isValidBlock (j.map p) := by
    simp [Store.isValidBlock,h.count]
  simp [Journal.logAt,h.map,hv,hb]

theorem Off.left (h : Off j (ws ++ vs)) : Off j ws := fun w hw => h w (mem_append_left _ hw)

theorem Off.right (h : Off j (ws ++ vs)) (hf : Follows ws j k) : Off k vs := fun w hw p =>
  hf.map ▸ h w (mem_append_right _ hw) p

theorem readBlock_spec (hc : j.store.Coherent) (b : Nat) : ∃ k, Follows [] j k ∧ readBlock b j =
      if j.store.isValidBlock b then .ok (j.store.view b) k else .error .invalidInode k := by
  obtain ⟨hs,hco⟩ := Store.readBlockInto_snd (b := b) hc
  refine ⟨_,Follows.of_same hs hco,?_⟩
  have hf := Store.readBlockInto_fst (s := j.store) (b := b)
  unfold readBlock
  cases hr : j.store.readBlockInto b with
  | mk r s =>
    simp only [hr] at hf ⊢
    by_cases hv : j.store.isValidBlock b = true
    · simp only [hv,↓reduceIte] at hf ⊢
      rw [hf]
    · simp only [hv,Bool.false_eq_true,↓reduceIte] at hf ⊢
      rw [hf]

theorem readLog_spec (hc : j.store.Coherent) (p : Nat) : ∃ k, Follows [] j k ∧
      ((∃ d, j.logAt p = some d ∧ readJournalBlockData p j = .ok d k) ∨
        j.logAt p = none ∧ ∃ e, readJournalBlockData p j = .error e k) := by
  unfold readJournalBlockData Journal.logAt
  by_cases h0 : j.map p = 0
  · exact ⟨j,⟨rfl,rfl,rfl,rfl,hc⟩,.inr ⟨by simp [h0],_,if_pos h0⟩⟩
  · obtain ⟨k,hk,he⟩ := readBlock_spec hc (j.map p)
    refine ⟨k,hk,?_⟩
    rw [if_neg h0]
    by_cases hv : j.store.isValidBlock (j.map p)
    · rw [if_pos hv] at he
      exact .inl ⟨_,if_pos ⟨h0,hv⟩,he⟩
    · rw [if_neg hv] at he
      exact .inr ⟨if_neg fun h => hv h.2,_,he⟩

theorem tryRead_spec (hc : j.store.Coherent) (p : Nat) :
    ∃ k, Follows [] j k ∧ tryRead p j = (j.logAt p,k) := by
  obtain ⟨k,hk,⟨d,hd,he⟩ | ⟨hn,e,he⟩⟩ := readLog_spec hc p
  · exact ⟨k,hk,by simp [tryRead,he,hd]⟩
  · exact ⟨k,hk,by simp [tryRead,he,hn]⟩

/-- The home write of one tag, if there is one. -/
def copyOf (log : Nat → Option Bytes) (revoked : List Nat) (tag : Nat × Nat) : List (Nat × Bytes) :=
  (copiesAt log [tag]).filter fun w => w.1 ∉ revoked

theorem replayTag_spec (hc : j.store.Coherent) (revoked : List Nat) (n : Nat) (tag : Nat × Nat) :
    Follows (copyOf j.logAt revoked tag) j (replayTag revoked (n,j) tag).2 := by
  unfold replayTag
  by_cases hr : tag.1 ∈ revoked
  · have : copyOf j.logAt revoked tag = [] := by
      cases h : j.logAt tag.2 <;> simp [copyOf,copiesAt,h,hr]
    rw [if_pos hr,this]
    exact ⟨rfl,rfl,rfl,rfl,hc⟩
  · obtain ⟨k,hk,he⟩ := tryRead_spec hc tag.2
    simp only [hr,↓reduceIte,he]
    cases h : j.logAt tag.2 with
    | none =>
      have : copyOf j.logAt revoked tag = [] := by simp [copyOf,copiesAt,h]
      exact this ▸ hk
    | some d =>
      have : copyOf j.logAt revoked tag = [] ++ [(tag.1,d)] := by simp [copyOf,copiesAt,h,hr]
      obtain ⟨hw,hco⟩ := Store.writeBlockData_spec (b := tag.1) (d := d) hk.coherent
      rw [this]
      exact hk.trans ⟨rfl,hw.size,hw.count,hw.view,hco⟩

theorem copiesAt_cons (log : Nat → Option Bytes) (t : Nat × Nat) (ts : List (Nat × Nat)) :
    copiesAt log (t :: ts) = copiesAt log [t] ++ copiesAt log ts := by
  cases h : log t.2 <;> simp [copiesAt,h]

/-- Replaying a transaction writes its copies home but for the revoked ones. -/
theorem replayTags_spec {revoked : List Nat} {log : Nat → Option Bytes} (tags : List (Nat × Nat))
    (hc : j.store.Coherent) (hl : j.logAt = log) (n : Nat)
    (ho : Off j ((copiesAt log tags).filter fun w => w.1 ∉ revoked)) :
    Follows ((copiesAt log tags).filter fun w => w.1 ∉ revoked) j
      (tags.foldl (replayTag revoked) (n,j)).2 := by
  induction tags generalizing j n with
  | nil => exact ⟨rfl,rfl,rfl,rfl,hc⟩
  | cons t ts ih =>
    rw [copiesAt_cons,filter_append] at ho ⊢
    have hk := replayTag_spec hc revoked n t
    rw [hl] at hk
    exact hk.trans (ih hk.coherent ((hk.logAt ho.left).trans hl) _ (ho.right hk))

theorem replayTxn_spec {c : Scan} {block : Nat} {buf : Bytes} {revoked : List Nat}
    {log : Nat → Option Bytes} (hc : j.store.Coherent) (hl : j.logAt = log) (n : Nat)
    (ho : ∀ copies, txnAt c log block buf = some copies →
      Off j (copies.filter fun w => w.1 ∉ revoked)) :
    ∃ o k, replayTxn c block buf revoked (n,j) = (o,k) ∧
      match txnAt c log block buf with
      | none => o = none ∧ Follows [] j k
      | some copies => o.isSome ∧ Follows (copies.filter fun w => w.1 ∉ revoked) j k := by
  obtain ⟨k,hk,he⟩ := tryRead_spec (j := j) hc
    (skipBlocks c.first c.maxlen (nextJournalBlock block c.first c.maxlen)
      (descriptorTags buf c.readSize).length)
  rw [hl] at he
  simp only [replayTxn,he]
  revert ho
  simp only [txnAt]
  cases log (skipBlocks c.first c.maxlen (nextJournalBlock block c.first c.maxlen)
      (descriptorTags buf c.readSize).length) with
  | none => exact fun _ => ⟨none,k,rfl,rfl,hk⟩
  | some commit =>
    simp only
    by_cases hcm : isCommitOf (be32 buf 8) commit
    · simp only [hcm,↓reduceIte]
      intro ho
      have hl' : k.logAt = log := (hk.logAt (fun w hw => by simp at hw)).trans hl
      have ho' := ho _ rfl
      have hk' := @replayTags_spec _ revoked _
        (placeTags c.first c.maxlen (nextJournalBlock block c.first c.maxlen)
          (descriptorTags buf c.readSize)) hk.coherent hl' n
        (fun w hw p => hk.map ▸ ho' w hw p)
      exact ⟨_,_,rfl,rfl,hk.trans hk'⟩
    · simp only [hcm,Bool.false_eq_true,↓reduceIte]
      exact fun _ => ⟨none,k,rfl,rfl,hk⟩

/-- The scan writes home what no earlier revoke record names. The log it reads
stays what it was, since the writes keep off it. -/
theorem recoverLoop_spec {c : Scan} {log : Nat → Option Bytes} (fuel : Nat) :
    ∀ (block scanned n : Nat) (revoked : List Nat) (j : Journal), j.store.Coherent → j.logAt = log →
      Off j (notRevokedBefore revoked (scanLog c log fuel block scanned)) →
      Follows (notRevokedBefore revoked (scanLog c log fuel block scanned)) j
        (recoverLoop c fuel block scanned revoked (n,j)).2 := by
  induction fuel with
  | zero => exact fun _ _ n _ j hc _ _ => ⟨rfl,rfl,rfl,rfl,hc⟩
  | succ fuel ih =>
    intro block scanned n revoked j hc hl ho
    unfold recoverLoop
    unfold scanLog at ho ⊢
    by_cases hs : c.maxScan ≤ scanned
    · simp only [hs,↓reduceIte]
      exact ⟨rfl,rfl,rfl,rfl,hc⟩
    obtain ⟨k,hk,he⟩ := tryRead_spec hc block
    rw [hl] at he
    simp only [hs,↓reduceIte,he] at ho ⊢
    have hl' : k.logAt = log := (hk.logAt fun w hw => by simp at hw).trans hl
    have hoff : ∀ {ws}, Off j ws → Off k ws := fun h w hw p => hk.map ▸ h w hw p
    cases hb : log block with
    | none => exact hk
    | some buf =>
      simp only [hb] at ho ⊢
      by_cases hm : be32 buf 0 = jbdMagic
      case neg =>
        simp only [ne_eq,hm,not_false_eq_true,↓reduceIte]
        exact hk
      by_cases hq : be32 buf 8 < c.startSeq
      case pos =>
        simp only [ne_eq,hm,not_true_eq_false,hq,↓reduceIte] at ho ⊢
        exact hk.trans (ih _ _ n _ k hk.coherent hl' (hoff ho))
      by_cases hr : be32 buf 4 = jbdRevokeBlock
      case pos =>
        simp only [ne_eq,hm,not_true_eq_false,hq,hr,↓reduceIte] at ho ⊢
        exact hk.trans (ih _ _ n _ k hk.coherent hl' (hoff ho))
      by_cases hd : be32 buf 4 = jbdDescriptorBlock
      case neg =>
        simp only [ne_eq,hm,not_true_eq_false,hq,hr,hd,not_false_eq_true,↓reduceIte] at ho ⊢
        exact hk.trans (ih _ _ n _ k hk.coherent hl' (hoff ho))
      simp only [ne_eq,hm,not_true_eq_false,hq,hd,↓reduceIte] at ho ⊢
      obtain ⟨o,k',he',hk'⟩ := @replayTxn_spec _ c block buf revoked _ hk.coherent hl' n (by
          intro copies hcopies
          simp only [hcopies] at ho
          exact hoff ho.left)
      simp only [he']
      cases ht : txnAt c log block buf with
      | none =>
        simp only [ht] at hk'
        obtain ⟨rfl,hk'⟩ := hk'
        exact hk.trans hk'
      | some copies =>
        simp only [ht] at hk' ho ⊢
        obtain ⟨ho',hk'⟩ := hk'
        obtain ⟨m,rfl⟩ := Option.isSome_iff_exists.mp ho'
        have hjk' : Follows (copies.filter fun w => w.1 ∉ revoked) j k' := hk.trans hk'
        exact hjk'.trans (ih _ _ m revoked k' hk'.coherent ((hjk'.logAt ho.left).trans hl)
          (ho.right hjk'))

theorem readSuperblock_spec (hc : j.store.Coherent) : ∃ k, Follows [] j k ∧
      ((∃ b, j.superblock = some b ∧ readJournalSuperblock j = .ok b k) ∨
        j.superblock = none ∧ ∃ e, readJournalSuperblock j = .error e k) := by
  unfold readJournalSuperblock superblock
  by_cases hj : j.hasJournal = true
  case neg =>
    simp only [hj,Bool.false_eq_true,↓reduceIte]
    exact ⟨j,⟨rfl,rfl,rfl,rfl,hc⟩,.inr ⟨trivial,_,rfl⟩⟩
  simp only [hj,↓reduceIte]
  obtain ⟨k,hk,⟨d,hd,he⟩ | ⟨hn,e,he⟩⟩ := readLog_spec hc 0
  · simp only [he,hd]
    refine ⟨k,hk,?_⟩
    by_cases hm : be32 d 0 = jbdMagic
    · exact .inl ⟨d,by simp [hm],if_pos hm⟩
    · exact .inr ⟨by simp [hm],_,if_neg hm⟩
  · simp only [he,hn]
    exact ⟨k,hk,.inr ⟨rfl,_,rfl⟩⟩

theorem cleanJournal_view (hc : j.store.Coherent) (hb : b ≠ j.map 0) :
    (final ext3CleanJournal j).store.view b = j.store.view b := by
  obtain ⟨k,hk,⟨d,-,he⟩ | ⟨-,e,he⟩⟩ := readSuperblock_spec hc
  · have hr : ext3CleanJournal j = .ok () _ := bind_of_ok he
    rw [final_of_ok hr]
    have hw := (Store.writeBlockData_spec (b := k.map 0) (d := cleaned d) hk.coherent).1
    refine (congrFun hw.view b).trans ?_
    rw [Function.update_of_ne (hk.map ▸ hb),hk.view]
    rfl
  · have hr : ext3CleanJournal j = .error e k := bind_of_error he
    rw [final_of_error hr,hk.view]
    rfl

theorem recover_view (hc : j.store.Coherent) (ho : Off j j.scannedWrites) (hb : ∀ p, j.map p ≠ b) :
    (final ext3Recover j).store.view b = (lastWrite b j.scannedWrites).getD (j.store.view b) := by
  obtain ⟨k,hk,⟨jsb,hs,he⟩ | ⟨hs,e,he⟩⟩ := readSuperblock_spec hc
  · simp only [scannedWrites,hs] at ho ⊢
    by_cases h0 : jsbStart jsb = 0
    · have : ext3Recover j = .ok 0 k := by simp [ext3Recover,he,h0]
      simp only [h0,↓reduceIte,final_of_ok this,hk.view]
      rfl
    simp only [h0,↓reduceIte] at ho ⊢
    have hl : k.logAt = j.logAt := hk.logAt fun w hw => by simp at hw
    have hl' := @recoverLoop_spec (scanOf j.store.blockSize jsb) j.logAt
      (scanOf j.store.blockSize jsb).maxScan (jsbStart jsb) 0 0 [] k hk.coherent hl
      (fun w hw p => hk.map ▸ ho w hw p)
    generalize hr : recoverLoop (scanOf j.store.blockSize jsb) (scanOf j.store.blockSize jsb).maxScan
      (jsbStart jsb) 0 [] (0,k) = r at hl'
    have hfin : final ext3Recover j = final ext3CleanJournal r.2 := by
      unfold final
      simp only [ext3Recover,he,h0,↓reduceIte,hk.size,hr]
      cases ext3CleanJournal r.2 <;> rfl
    have hrb : b ≠ r.2.map 0 := by
      rw [hl'.map,hk.map]
      exact (hb 0).symm
    rw [hfin,cleanJournal_view hl'.coherent hrb,(hk.trans hl').view,nil_append,applyWrites_apply]
  · have : ext3Recover j = .error e k := by simp [ext3Recover,he]
    simp only [scannedWrites,hs,final_of_error this,hk.view]
    rfl

end Journal
end Miku.Ext
