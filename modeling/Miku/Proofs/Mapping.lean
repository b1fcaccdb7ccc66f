import Miku.Proofs.Accounts
import Miku.Proofs.Lookup

namespace Miku.Mm
open Lib Lib.Ledger Memory Pte

variable {s : Memory} {p4 : P4}

theorem spaces_split {ps : List P4} (h : ps.find? (fun p => p.frame == cr3) = some p4) :
    ∃ rest, tally ps P4.holds = rest + p4.holds ∧ (∀ p4' : P4, p4'.frame = cr3 →
        tally (replaceSpace p4' ps) P4.holds = rest + p4'.holds) ∧
      tally (ps.eraseP (fun p => p.frame == cr3)) P4.holds = rest := by
  induction ps with
  | nil => simp at h
  | cons p ps ih =>
    rw [List.find?_cons] at h
    cases hp : p.frame == cr3 with
    | true =>
      rw [hp] at h
      cases h
      refine ⟨tally ps P4.holds,?_,?_,?_⟩
      · rw [tally_cons,add_comm]
      · intro p4' hf
        unfold replaceSpace
        rw [hf,hp,if_pos rfl,tally_cons,add_comm]
      · rw [List.eraseP_cons,hp]
        rfl
    | false =>
      rw [hp] at h
      obtain ⟨rest,he,hr,hd⟩ := ih h
      refine ⟨p.holds + rest,?_,?_,?_⟩
      · rw [tally_cons,he,add_assoc]
      · intro p4' hf
        unfold replaceSpace
        rw [hf,hp,if_neg (by decide),tally_cons,hr p4' hf,add_assoc]
      · rw [List.eraseP_cons,hp]
        change tally (p :: _) _ = _
        rw [tally_cons,hd]

theorem space_split (h : s.space cr3 = some p4) : ∃ rest, s.holds = rest + p4.holds ∧
      ∀ p4' : P4, p4'.frame = p4.frame → (s.setSpace p4').holds = rest + p4'.holds := by
  obtain ⟨rest,he,hr,-⟩ := spaces_split h
  exact ⟨rest,he,fun p4' hf => hr p4' (hf.trans (space_frame h))⟩

theorem P4.write_split (h : p4.readPteRaw virt = some pte) : ∃ rest, p4.holds = rest + entry pte ∧
      ∀ new, P4.holds (p4.writePteRaw virt new) = rest + entry new := by
  obtain ⟨f3,p3,f2,p2,f1,p1,h3,h2,h1,hz,rfl⟩ := P4.read_tables h
  obtain ⟨rest,he,hs⟩ := P4.holds_split h3 h2 h1
  refine ⟨rest,he,fun new => ?_⟩
  unfold P4.writePteRaw
  simp only [h3,h2,h1,if_neg hz]
  exact hs new

/-- Rewriting an entry that is there changes the account by that entry only, whatever
happens to the rest in between. -/
theorem write_split (h : s.readPteRaw cr3 virt = some pte) : ∃ rest, s.holds = rest + entry pte ∧
      ∀ t : Memory, t.spaces = s.spaces →
        ∀ new, (t.writePteRaw cr3 virt new).holds = rest + entry new := by
  obtain ⟨p4,hp,hr⟩ := Option.bind_eq_some_iff.mp h
  obtain ⟨r4,e4,s4⟩ := space_split hp
  obtain ⟨r,e,w⟩ := P4.write_split hr
  refine ⟨r4 + r,by rw [e4,e,add_assoc],fun t ht new => ?_⟩
  have hpt : t.space cr3 = some p4 := by
    unfold space
    rw [ht]
    exact hp
  have hset : (t.setSpace (p4.writePteRaw virt new)).holds =
      (s.setSpace (p4.writePteRaw virt new)).holds :=
    holds_of_spaces (congrArg (replaceSpace _) ht)
  unfold Memory.writePteRaw
  rw [hpt]
  dsimp only
  rw [hset,s4 _ (P4.write_frame p4 virt new),w,add_assoc]

theorem write_pmm (s : Memory) (cr3 virt : Nat) (pte : Pte) :
    (s.writePteRaw cr3 virt pte).pmm = s.pmm := by
  unfold Memory.writePteRaw
  split <;> rfl

theorem write_refcounts (s : Memory) (cr3 virt : Nat) (pte : Pte) :
    (s.writePteRaw cr3 virt pte).refcounts = s.refcounts := by
  unfold Memory.writePteRaw
  split <;> rfl

theorem write_pool (s : Memory) (cr3 virt : Nat) (pte : Pte) :
    (s.writePteRaw cr3 virt pte).pool = s.pool := by
  unfold Memory.writePteRaw
  split <;> rfl

theorem Books.write (h : Books iso s A) (cr3 virt : Nat) (pte : Pte) :
    Books iso (s.writePteRaw cr3 virt pte) A :=
  h.congr (write_pmm _ _ _ _) (write_refcounts _ _ _ _) (write_pool _ _ _ _)

variable {flags : Pte}

theorem get_or_create_books {mk : Nat → α} {sub : α → Account}
    (hmk : ∀ frame, sub (mk frame) = single .table frame) (h : Books iso s (A + link sub l))
    (hg : s.getOrCreate mk l = some ((flags,t),s')) :
    Books iso s' (A + sub t) := by
  cases l with
  | some l =>
    cases hg
    exact h
  | none =>
    obtain ⟨⟨frame,s1⟩,ha,he⟩ := Option.map_eq_some_iff.mp hg
    simp only [Prod.mk.injEq] at he
    obtain ⟨⟨rfl,rfl⟩,rfl⟩ := he
    obtain ⟨hb,hr⟩ := h.forget.alloc ha
    have ht := hb.hand_table hr
    rw [hmk]
    exact ⟨ht.owned,ht.lone⟩

/-- Every outcome of the walk: tables may have been added on the way down, the
entry is written only at the end. -/
theorem map_in_books (h : Books iso s (A + p4.holds)) (hm : s.mapIn p4 virt pte = (ok,p4',s')) :
    if ok then ∃ rest, Books iso s' (A + rest) ∧ p4'.holds = rest + entry pte
    else Books iso s' (A + p4'.holds) := by
  obtain ⟨r4,e4,s4⟩ := Dir.holds_split P3.holds p4 (pt_index_mem virt 3)
  change p4.holds = _ at e4
  rw [e4,← add_assoc] at h
  unfold mapIn at hm
  dsimp only at hm
  split at hm
  · cases hm
    rw [if_neg (by decide),e4,← add_assoc]
    exact h
  rename_i f3 p3 s1 hg3
  have h3 := get_or_create_books (Dir.empty_holds P2.holds) h hg3
  obtain ⟨r3,e3,s3⟩ := Dir.holds_split P2.holds p3 (pt_index_mem virt 2)
  split at hm
  · cases hm
    rw [if_neg (by decide)]
    change Books iso _ (A + Dir.holds P3.holds _)
    rw [s4,← add_assoc]
    exact h3
  rename_i f2 p2 s2' hg2
  change Books iso s1 (A + r4 + Dir.holds P2.holds p3) at h3
  rw [e3,← add_assoc] at h3
  have h2 := get_or_create_books (Dir.empty_holds P1.holds) h3 hg2
  obtain ⟨r2,e2,s2⟩ := Dir.holds_split P1.holds p2 (pt_index_mem virt 1)
  split at hm
  · cases hm
    rw [if_neg (by decide)]
    change Books iso _ (A + Dir.holds P3.holds _)
    rw [s4]
    change Books iso _ (A + (r4 + Dir.holds P2.holds _))
    rw [s3,← add_assoc,← add_assoc]
    exact h2
  rename_i f1 p1 s3' hg1
  change Books iso s2' (A + r4 + r3 + Dir.holds P1.holds p2) at h2
  rw [e2,← add_assoc] at h2
  have h1 := get_or_create_books P1.empty_holds h2 hg1
  obtain ⟨r1,e1,s1⟩ := p1.holds_split (pt_index_mem virt 0)
  cases hm
  rw [if_pos rfl]
  rw [e1,← add_assoc] at h1
  refine ⟨r4 + (r3 + (r2 + r1)),?_,?_⟩
  · have hf := h1.forget
    simp only [add_assoc] at hf
    exact hf
  · change Dir.holds P3.holds _ = _
    rw [s4]
    change r4 + Dir.holds P2.holds _ = _
    rw [s3]
    change r4 + (r3 + Dir.holds P1.holds _) = _
    rw [s2,s1]
    simp only [add_assoc]

/-- Flags that leave the address field of an entry alone. -/
def PlainFlags (flags : Pte) : Prop := flags &&& pteAddrMask = 0#64

theorem prot_flags_plain (prot : Nat) : PlainFlags (protToFlags prot) := by
  unfold PlainFlags protToFlags
  dsimp only
  repeat' split
  all_goals decide

theorem swapin_flags_plain (raw : Pte) : PlainFlags (swapinFlags raw) := by
  unfold PlainFlags swapinFlags
  dsimp only
  split
  · rw [Lib.Bits.or_and_of_disjoint _ (by decide)]
    exact Lib.Bits.and_and_of_disjoint _ (by decide)
  · decide

theorem held_entry (h : held a f) : ∃ n, n < 2 ^ 40 ∧ f = n * 4096 := by
  refine ⟨f / 4096,Nat.lt_of_lt_of_le h.2.1 (by decide),?_⟩
  have := h.1
  omega

theorem set_addr_of_held (h : held a f) (hf : PlainFlags flags) :
    (setAddr f (flags ||| ptePresent)).addr = f ∧
      (setAddr f (flags ||| ptePresent)).writable = flags.writable ∧
      (setAddr f (flags ||| ptePresent)).present = true := by
  obtain ⟨n,hn,rfl⟩ := held_entry h
  refine ⟨?_,?_,?_⟩
  · refine setAddr_addr hn ?_
    rw [Lib.Bits.or_and_of_disjoint _ (by decide)]
    exact hf
  · unfold Pte.writable
    rw [setAddr_has hn _ (by decide)]
    unfold Pte.has
    rw [Lib.Bits.or_and_of_disjoint _ (by decide)]
  · unfold present
    rw [setAddr_has hn _ (by decide)]
    unfold Pte.has
    rw [Lib.Bits.or_and_of_covered _ (by decide)]
    decide

/-- The books balance against everything the page tables hold. -/
def Kept (iso : Prop) (s : Memory) : Prop := Books iso s s.holds

theorem Books.hand_held (h : Books iso s (A + hand phys)) : held s.pmm phys := by
  refine h.owned_hand.held_leaf ?_
  rw [add_apply,one_self]
  exact Nat.succ_pos _

theorem map_page_books (h : Books iso s (s.holds + hand phys)) (hf : PlainFlags flags)
    (hw : iso → flags.writable = true → s.refcounts.refGet phys ≤ 1)
    (hm : s.mapPage cr3 virt phys flags = (ok,s')) : s'.refcounts = s.refcounts ∧
      if ok then Kept iso s' else Books iso s' (s'.holds + hand phys) := by
  unfold Memory.mapPage at hm
  split at hm
  · cases hm
    exact ⟨rfl,h⟩
  rename_i p4 hp
  obtain ⟨rest,e4,s4⟩ := space_split hp
  rw [e4,add_right_comm] at h
  rcases hmi : s.mapIn p4 virt (setAddr phys (flags ||| ptePresent)) with ⟨ok1,p4',s1⟩
  obtain ⟨hg,hfr⟩ := map_in_grown hmi
  have hb := map_in_books h hmi
  have hset : (s1.setSpace p4').holds = rest + p4'.holds := by
    rw [← s4 p4' hfr]
    exact holds_of_spaces (congrArg (replaceSpace _) hg.spaces)
  rw [hmi] at hm
  dsimp only at hm
  obtain ⟨ha,hwr,-⟩ := set_addr_of_held (Books.hand_held h.forget) hf
  cases ok1 with
  | false =>
    rw [if_neg (by decide)] at hm hb
    cases hm
    refine ⟨hg.refcounts,?_⟩
    rw [if_neg (by decide),hset,add_right_comm]
    exact ⟨hb.owned,hb.lone⟩
  | true =>
    rw [if_pos rfl] at hm hb
    cases hm
    obtain ⟨r,hb,hr⟩ := hb
    rw [add_right_comm] at hb
    have hb := hb.hand_entry ha (fun hi hw' => by
      rw [hg.refcounts]
      exact hw hi (hwr ▸ hw'))
    rw [add_assoc,← hr,← hset] at hb
    exact ⟨hg.refcounts,hb.owned,hb.lone⟩

theorem map_page_space (hm : s.mapPage cr3 virt phys flags = (ok,s')) (hp : s.space cr3 = some p4) :
    ∃ p4' s1, s.mapIn p4 virt (setAddr phys (flags ||| ptePresent)) = (ok,p4',s1) ∧
      ∀ cr, s'.space cr = if cr = cr3 then some p4' else s.space cr := by
  unfold Memory.mapPage at hm
  rw [hp] at hm
  dsimp only at hm
  rcases hmi : s.mapIn p4 virt (setAddr phys (flags ||| ptePresent)) with ⟨ok1,p4',s1⟩
  rw [hmi] at hm
  obtain ⟨hg,hfr⟩ := map_in_grown hmi
  have hr : ok1 = ok ∧ s'.spaces = replaceSpace p4' s.spaces := by
    rw [← hg.spaces]
    dsimp only at hm
    split at hm
    · rename_i ht
      cases hm
      exact ⟨ht,rfl⟩
    · rename_i ht
      cases hm
      exact ⟨by simpa using ht,rfl⟩
  obtain ⟨rfl,hr⟩ := hr
  refine ⟨p4',s1,rfl,fun cr => ?_⟩
  rw [← space_set hp hfr]
  unfold space setSpace
  rw [hr]

theorem map_page_reads
    (hm : s.mapPage cr3 virt phys flags = (ok,s')) (h : s'.readPteRaw cr v = some pte) :
    (pte = setAddr phys (flags ||| ptePresent) ∨ pte = 0#64) ∨ s.readPteRaw cr v = some pte := by
  cases hp : s.space cr3 with
  | none =>
    unfold Memory.mapPage at hm
    rw [hp] at hm
    cases hm
    exact .inr h
  | some p4 =>
    obtain ⟨p4',s1,hmi,hsp⟩ := map_page_space hm hp
    unfold Memory.readPteRaw at h ⊢
    rw [hsp] at h
    split at h
    · rename_i hc
      subst hc
      rw [hp]
      exact map_in_reads hmi h
    · exact .inr h

theorem map_page_reads_self (hm : s.mapPage cr3 virt phys flags = (true,s'))
    (h : s'.readPteRaw cr3 virt = some pte) : pte = setAddr phys (flags ||| ptePresent) := by
  cases hp : s.space cr3 with
  | none =>
    unfold Memory.mapPage at hm
    rw [hp] at hm
    cases hm
  | some p4 =>
    obtain ⟨p4',s1,hmi,hsp⟩ := map_page_space hm hp
    unfold Memory.readPteRaw at h
    rw [hsp,if_pos rfl] at h
    exact map_in_reads_self hmi h

end Miku.Mm
