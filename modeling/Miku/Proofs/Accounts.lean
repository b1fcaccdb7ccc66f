import Miku.Lib.Bits
import Miku.Proofs.Ownership
import Miku.Lib.Tally

namespace Miku.Mm
open Lib.Bits

namespace Pte

section

variable (p : Pte)
include p

@[simp] theorem toCow_addr : p.toCow.addr = p.addr := by
  unfold addr toCow
  rw [or_and_of_disjoint _ (by decide),and_not_and_of_disjoint _ (by decide)]

@[simp] theorem toCow_present : p.toCow.present = p.present := by
  unfold present has toCow
  rw [or_and_of_disjoint _ (by decide),and_not_and_of_disjoint _ (by decide)]

@[simp] theorem toCow_writable : p.toCow.writable = false := by
  unfold writable has toCow
  rw [or_and_of_disjoint _ (by decide),and_not_and_of_covered _ (by decide)]
  rfl

@[simp] theorem toCow_cow : p.toCow.cow = true := by
  unfold cow has toCow
  rw [or_and_of_covered _ (by decide)]
  rfl

theorem toCow_toCow : p.toCow.toCow = p.toCow := by
  unfold toCow
  apply BitVec.eq_of_getLsbD_eq
  intro i hi
  simp only [BitVec.getLsbD_or,BitVec.getLsbD_and,BitVec.getLsbD_not,hi,decide_true,Bool.true_and]
  cases p.getLsbD i <;> cases pteWritable.getLsbD i <;> cases pteCow.getLsbD i <;> rfl

@[simp] theorem unshared_addr : p.unshared.addr = p.addr := by
  unfold addr unshared
  rw [or_and_of_disjoint _ (by decide),and_not_and_of_disjoint _ (by decide)]

@[simp] theorem unshared_writable : p.unshared.writable = true := by
  unfold writable has unshared
  rw [or_and_of_covered _ (by decide)]
  rfl

end

theorem addr_mask_bit (i : Nat) : pteAddrMask.getLsbD i = (decide (12 ≤ i) && decide (i < 52)) := by
  by_cases hi : i < 64
  · have h : ∀ j : Fin 64, pteAddrMask.getLsbD j.val =
        (decide (12 ≤ j.val) && decide (j.val < 52)) := by decide
    exact h ⟨i,hi⟩
  · rw [BitVec.getLsbD_of_ge _ _ (by omega),decide_eq_false (by omega : ¬ i < 52),Bool.and_false]

theorem ofNat_and_mask (hf : f < 2 ^ 40) :
    BitVec.ofNat 64 (f * 4096) &&& pteAddrMask = BitVec.ofNat 64 (f * 4096) := by
  apply BitVec.eq_of_getLsbD_eq
  intro i hi
  rw [BitVec.getLsbD_and,addr_mask_bit,BitVec.getLsbD_ofNat,decide_eq_true hi,Bool.true_and,
    show (4096 : Nat) = 2 ^ 12 from rfl,Nat.testBit_mul_two_pow]
  by_cases hl : 12 ≤ i
  · by_cases hu : i < 52
    · simp [hl,hu]
    · have hz : f.testBit (i - 12) = false :=
        Nat.testBit_lt_two_pow (Nat.lt_of_lt_of_le hf (Nat.pow_le_pow_right (by decide) (by omega)))
      simp [hz]
  · simp [hl]

theorem ofNat_toNat (hf : f < 2 ^ 40) : (BitVec.ofNat 64 (f * 4096)).toNat = f * 4096 := by
  rw [BitVec.toNat_ofNat]
  exact Nat.mod_eq_of_lt (by omega)

theorem addr_aligned (p : Pte) : ∃ f, p.addr = f * 4096 := by
  refine ⟨p.addr / 4096,?_⟩
  have hz : p &&& pteAddrMask &&& 0xFFF#64 = 0#64 := and_and_of_disjoint _ (by decide)
  have hm : p.addr % 4096 = 0 := by
    have h := congrArg BitVec.toNat hz
    rw [BitVec.toNat_and] at h
    change p.addr &&& (2 ^ 12 - 1) = 0 at h
    rwa [Nat.and_two_pow_sub_one_eq_mod] at h
  omega

theorem addr_div_mul (p : Pte) : p.addr / 4096 * 4096 = p.addr := by
  obtain ⟨f,hf⟩ := p.addr_aligned
  omega

theorem setAddr_addr (hf : f < 2 ^ 40) (hm : flags &&& pteAddrMask = 0#64) :
    (setAddr (f * 4096) flags).addr = f * 4096 := by
  unfold addr setAddr
  rw [or_and_of_disjoint _ hm,ofNat_and_mask hf,ofNat_toNat hf]

theorem ofNat_and_flag (hf : f < 2 ^ 40) (hm : pteAddrMask &&& m = 0#64) :
    BitVec.ofNat 64 (f * 4096) &&& m = 0#64 := by
  rw [← ofNat_and_mask hf]
  exact and_and_of_disjoint _ hm

theorem setAddr_has (hf : f < 2 ^ 40) (flags : Pte)
    (hm : pteAddrMask &&& m = 0#64) : (setAddr (f * 4096) flags).has m = flags.has m := by
  unfold has setAddr
  rw [BitVec.or_comm,or_and_of_disjoint _ (ofNat_and_flag hf hm)]

theorem copied_addr (p : Pte) (hf : f < 2 ^ 40) : (p.copied (f * 4096)).addr = f * 4096 := by
  unfold addr copied
  rw [or_and_of_disjoint _ (by decide),ofNat_and_mask hf]
  have hz : p &&& ~~~pteAddrMask &&& ~~~pteCow &&& pteAddrMask = 0#64 := by
    rw [and_not_and_of_disjoint _ (by decide)]
    exact and_not_and_of_covered _ (by decide)
  rw [or_and_of_disjoint _ hz,ofNat_and_mask hf,ofNat_toNat hf]

theorem copied_writable (p : Pte) (phys : Nat) : (p.copied phys).writable = true := by
  unfold writable has copied
  rw [or_and_of_covered _ (by decide)]
  rfl

theorem zero_present : Pte.present 0#64 = false := by decide

end Pte

open Lib.Ledger

/-- What a frame is used for by one page-table entry or link. -/
inductive Role where
  | table | readOnly | writable
  deriving DecidableEq, Repr

/-- How often each frame is used in each role. -/
abbrev Account := Role → Nat → Nat

def single (r : Role) (f : Nat) : Account := fun q => if q = r then one f else 0

/-- Present mappings of a frame, whatever their permission. -/
def Account.mapped (A : Account) : Nat → Nat := A .readOnly + A .writable

/-- A frame someone holds outside the page tables counts as one mapping. -/
def hand (f : Nat) : Account := single .readOnly f

/-- The use one raw entry makes of the frame it points to. -/
def entry (pte : Pte) : Account :=
  if pte.present then single (if pte.writable then .writable else .readOnly) pte.addr else 0

theorem Account.mapped_add (A B : Account) : (A + B).mapped = A.mapped + B.mapped :=
  add_add_add_comm _ _ _ _

@[simp] theorem single_self (r : Role) (f : Nat) : single r f r = one f := if_pos rfl

@[simp] theorem mapped_table (f : Nat) : (single .table f).mapped = 0 := rfl

@[simp] theorem mapped_read_only (f : Nat) : (single .readOnly f).mapped = one f := add_zero _

@[simp] theorem mapped_writable (f : Nat) : (single .writable f).mapped = one f := zero_add _

@[simp] theorem mapped_hand (f : Nat) : (hand f).mapped = one f := mapped_read_only f

theorem entry_absent {pte : Pte} (h : pte.present = false) : entry pte = 0 := by
  unfold entry
  rw [h]
  rfl

theorem entry_writable {pte : Pte} (h : pte.present = true) (hw : pte.writable = true) :
    entry pte = single .writable pte.addr := by
  unfold entry
  rw [h,hw]
  rfl

theorem entry_read_only {pte : Pte} (h : pte.present = true) (hw : pte.writable = false) :
    entry pte = hand pte.addr := by
  unfold entry
  rw [h,hw]
  rfl

theorem entry_mapped {pte : Pte} (h : pte.present = true) : (entry pte).mapped = one pte.addr := by
  cases hw : pte.writable with
  | true => rw [entry_writable h hw,mapped_writable]
  | false => rw [entry_read_only h hw,mapped_hand]

/-- The books balance: allocator and share counts cover the uses in `A`, and
(when isolation is asked for) a writable mapping is the only one of its frame. -/
structure Books (iso : Prop) (s : Memory) (A : Account) : Prop where
  owned : Owned s (A .table) A.mapped
  lone : iso → ∀ f, 0 < A .writable f → A.mapped f ≤ 1

variable {s' : Memory} {pte : Pte}

theorem Books.congr (h : Books iso s A) (hp : s'.pmm = s.pmm) (hr : s'.refcounts = s.refcounts)
    (he : s'.pool = s.pool) : Books iso s' A := by
  refine ⟨?_,h.lone⟩
  unfold Owned
  rw [hp,hr,he]
  exact h.owned

theorem Books.forget (h : Books iso s (A + B)) : Books iso s A := by
  have hm : ∀ i, A.mapped i ≤ (A + B).mapped i := by
    intro i
    rw [Account.mapped_add]
    exact Nat.le_add_right _ _
  refine ⟨h.owned.mono (fun i => Nat.le_add_right _ _) hm,?_⟩
  intro hi f hf
  exact le_trans (hm f) (h.lone hi f (lt_of_lt_of_le hf (Nat.le_add_right _ _)))

section

variable (h : Books iso s (A + hand f))
include h

theorem Books.owned_hand : Owned s (A .table) (A.mapped + one f) := by
  have ho := h.owned
  rw [Account.mapped_add,mapped_hand] at ho
  exact ho

theorem Books.hand_lone (hi : iso) : A .writable f = 0 := by
  refine Nat.eq_zero_of_not_pos fun hp => ?_
  have hl := h.lone hi f hp
  rw [Account.mapped_add,mapped_hand,add_apply,one_self] at hl
  have hz : A .writable f ≤ A.mapped f := Nat.le_add_left _ _
  omega

theorem Books.hand_spare (hr : s.refcounts.refGet f ≤ 1) : Spared s (A .table) A.mapped f :=
  (h.owned_hand.spare_of_last hr).2

end

theorem Books.pick (h : Books iso s A) (hs : Spared s (A .table) A.mapped f) :
    Books iso s (A + hand f) ∧ s.refcounts.refGet f ≤ 1 := by
  have hr : s.refcounts.refGet f ≤ 1 := by
    rw [ref_get_of_held hs.kept]
    exact hs.single
  refine ⟨⟨?_,?_⟩,hr⟩
  · rw [Account.mapped_add,mapped_hand]
    exact h.owned.add_leaf hs
  · intro hi g hg
    rw [Account.mapped_add,mapped_hand,add_apply]
    have hpos : 0 < A .writable g := hg
    have hne : g ≠ f := by
      rintro rfl
      have hz := hs.noShared
      have hw : A .writable g ≤ A.mapped g := Nat.le_add_left _ _
      omega
    rw [one_ne hne]
    exact h.lone hi g hg

theorem Books.alloc (h : Books iso s A) (ha : s.allocFrame = some (f,s')) :
    Books iso s' (A + hand f) ∧ s'.refcounts.refGet f ≤ 1 := by
  obtain ⟨ho,hs⟩ := h.owned.alloc ha
  exact Books.pick ⟨ho,h.lone⟩ hs

section

variable (h : Books iso s (A + hand f)) (hr : s.refcounts.refGet f ≤ 1)
include h hr

theorem Books.hand_table : Books iso s (A + single .table f) := by
  have hf := h.forget
  refine ⟨?_,?_⟩
  · rw [Account.mapped_add,mapped_table,add_zero]
    exact hf.owned.add_table (h.hand_spare hr)
  · intro hi g hg
    rw [Account.mapped_add,mapped_table,add_zero]
    exact hf.lone hi g hg

theorem Books.hand_free : Books iso (s.freeFrame f) A :=
  ⟨h.forget.owned.free_spare (h.hand_spare hr),h.forget.lone⟩

theorem Books.hand_push (hp : s.pool.push f = some p) : Books iso { s with pool := p } A :=
  ⟨h.forget.owned.push (h.hand_spare hr) hp,h.forget.lone⟩

end

theorem Books.pop (h : Books iso s A) (hp : s.pool.pop = some (f,p)) :
    Books iso { s with pool := p } (A + hand f) ∧ s.refcounts.refGet f ≤ 1 := by
  obtain ⟨ho,hs⟩ := h.owned.pop hp
  exact Books.pick ⟨ho,h.lone⟩ hs

theorem Books.hand_entry (h : Books iso s (A + hand f)) (ha : pte.addr = f)
    (hw : iso → pte.writable = true → s.refcounts.refGet f ≤ 1) : Books iso s (A + entry pte) := by
  cases hp : pte.present with
  | false =>
    rw [entry_absent hp,add_zero]
    exact h.forget
  | true => cases hpw : pte.writable with
    | false =>
      rw [entry_read_only hp hpw,ha]
      exact h
    | true =>
      rw [entry_writable hp hpw,ha]
      refine ⟨?_,?_⟩
      · rw [Account.mapped_add,mapped_writable]
        exact h.owned_hand
      · intro hi g hg
        rw [Account.mapped_add,mapped_writable,add_apply]
        by_cases hgf : g = f
        · subst hgf
          exact le_of_eq (by rw [(h.hand_spare (hw hi hpw)).noShared,one_self])
        · have hpos : 0 < A .writable g + one f g := hg
          rw [one_ne hgf] at hpos ⊢
          exact h.forget.lone hi g hpos

theorem Books.entry_hand (h : Books iso s (A + entry pte)) (hp : pte.present = true) :
    Books iso s (A + hand pte.addr) := by
  cases hw : pte.writable with
  | false =>
    rw [entry_read_only hp hw] at h
    exact h
  | true =>
    rw [entry_writable hp hw] at h
    have ho := h.owned
    rw [Account.mapped_add,mapped_writable] at ho
    refine ⟨?_,?_⟩
    · rw [Account.mapped_add,mapped_hand]
      exact ho
    · intro hi g hg
      have hl := h.lone hi g (lt_of_lt_of_le hg (Nat.le_add_right _ _))
      rw [Account.mapped_add,mapped_writable] at hl
      rw [Account.mapped_add,mapped_hand]
      exact hl

theorem Books.free_table (h : Books iso s (A + single .table f)) : Books iso (s.freeTable f) A := by
  have ho := h.owned
  rw [Account.mapped_add,mapped_table,add_zero] at ho
  exact ⟨Owned.free_table ho,h.forget.lone⟩

section

variable (h : Books iso s (A + entry pte)) (hp : pte.present = true)
include h hp

theorem Books.share (hr : owners s.refcounts pte.addr < RefCounts.u16Max) :
    Books iso { s with refcounts := s.refcounts.refInc pte.addr }
      (A + entry pte.toCow + entry pte.toCow) := by
  have hh := h.entry_hand hp
  have he : entry pte.toCow = hand pte.addr := by
    rw [entry_read_only (by rw [Pte.toCow_present,hp]) pte.toCow_writable,Pte.toCow_addr]
  rw [he]
  refine ⟨?_,?_⟩
  · rw [Account.mapped_add,mapped_hand]
    refine Owned.ref_inc hh.owned ?_ hr
    rw [Account.mapped_add,mapped_hand,add_apply,one_self]
    exact Nat.succ_pos _
  · intro hi g hg
    have hpos : 0 < A .writable g := hg
    have hne : g ≠ pte.addr := by
      rintro rfl
      exact absurd (hh.hand_lone hi) hpos.ne'
    rw [Account.mapped_add,mapped_hand,add_apply,one_ne hne]
    exact hh.lone hi g hg

theorem Books.leave (hr : 1 < s.refcounts.refGet pte.addr) :
    Books iso { s with refcounts := (s.refcounts.refDec pte.addr).2 } A := by
  have hh := h.entry_hand hp
  exact ⟨Owned.ref_dec hh.owned_hand hr,hh.forget.lone⟩

theorem Books.free_cow : Books iso (s.freeFrameCowSwap pte.addr) A :=
  ⟨(h.entry_hand hp).owned_hand.free_cow,h.forget.lone⟩

end

open Lib

/-- All uses a last-level table makes of frames, its own included. -/
def P1.holds (p : P1) : Account :=
  single .table p.frame + tally (List.range tableSlots) (fun m => entry (p.ptes m))

def link (sub : α → Account) : Option (Pte × α) → Account
  | none => 0
  | some (_,t) => sub t

def Dir.holds (sub : α → Account) (d : Dir α) : Account :=
  single .table d.frame + tally (List.range tableSlots) (fun i => link sub (d.entries i))

def P2.holds : P2 → Account := Dir.holds P1.holds
def P3.holds : P3 → Account := Dir.holds P2.holds
def P4.holds : P4 → Account := Dir.holds P3.holds

def Memory.holds (s : Memory) : Account := tally s.spaces P4.holds

theorem holds_of_spaces {s s' : Memory} (h : s'.spaces = s.spaces) : s'.holds = s.holds :=
  congrArg (tally · P4.holds) h

theorem pt_index_mem (virt level : Nat) : ptIndex virt level ∈ List.range tableSlots :=
  List.mem_range.mpr (Nat.mod_lt _ (by decide))

theorem P1.empty_holds (frame : Nat) : (P1.empty frame).holds = single .table frame := by
  unfold P1.holds
  rw [tally_zero,add_zero]
  · rfl
  · exact fun _ _ => entry_absent Pte.zero_present

theorem Dir.empty_holds (sub : α → Account) (frame : Nat) :
    (Dir.empty α frame).holds sub = single .table frame := by
  unfold Dir.holds
  rw [tally_zero,add_zero]
  · rfl
  · exact fun _ _ => rfl

theorem P1.holds_split (p : P1) (hm : m ∈ List.range tableSlots) :
    ∃ rest, p.holds = rest + entry (p.ptes m) ∧ ∀ pte, (p.set m pte).holds = rest + entry pte := by
  obtain ⟨rest,hf,hg⟩ := tally_split List.nodup_range hm (fun m => entry (p.ptes m))
  refine ⟨single .table p.frame + rest,?_,?_⟩
  · unfold P1.holds
    rw [hf,add_assoc]
  · intro pte
    have h := hg (fun j => entry ((p.set m pte).ptes j)) (fun j hj => by rw [P1.set_ne p hj])
    unfold P1.holds
    rw [h,add_assoc,P1.set_self,P1.set_frame]

theorem Dir.holds_split (sub : α → Account) (d : Dir α) (hi : i ∈ List.range tableSlots) :
    ∃ rest, d.holds sub = rest + link sub (d.entries i) ∧
      ∀ flags t, (d.set i (flags,t)).holds sub = rest + sub t := by
  obtain ⟨rest,hf,hg⟩ := tally_split List.nodup_range hi (fun i => link sub (d.entries i))
  refine ⟨single .table d.frame + rest,?_,?_⟩
  · unfold Dir.holds
    rw [hf,add_assoc]
  · intro flags t
    have h := hg (fun j => link sub ((d.set i (flags,t)).entries j))
      (fun j hj => by rw [Dir.set_ne d hj])
    unfold Dir.holds
    rw [h,add_assoc,Dir.set_self,Dir.set_frame]
    rfl

variable {p4 : P4}

theorem P4.pteAt_tables (h : p4.pteAt virt = some pte) :
    ∃ f3 p3 f2 p2 f1 p1, p4.entries (ptIndex virt 3) = some (f3,p3) ∧
      p3.entries (ptIndex virt 2) = some (f2,p2) ∧ p2.entries (ptIndex virt 1) = some (f1,p1) ∧
      p1.ptes (ptIndex virt 0) = pte := by
  unfold P4.pteAt at h
  split at h
  · cases h
  · rename_i f3 p3 h3
    split at h
    · cases h
    · rename_i f2 p2 h2
      split at h
      · cases h
      · rename_i f1 p1 h1
        cases h
        exact ⟨f3,p3,f2,p2,f1,p1,h3,h2,h1,rfl⟩

theorem P4.holds_split (h3 : p4.entries (ptIndex virt 3) = some (f3,p3))
    (h2 : p3.entries (ptIndex virt 2) = some (f2,p2))
    (h1 : p2.entries (ptIndex virt 1) = some (f1,p1)) :
    ∃ rest, p4.holds = rest + entry (p1.ptes (ptIndex virt 0)) ∧
      ∀ pte, P4.holds (p4.set (ptIndex virt 3) (f3,p3.set (ptIndex virt 2)
        (f2,p2.set (ptIndex virt 1) (f1,p1.set (ptIndex virt 0) pte)))) = rest + entry pte := by
  obtain ⟨r4,e4,s4⟩ := Dir.holds_split P3.holds p4 (pt_index_mem virt 3)
  obtain ⟨r3,e3,s3⟩ := Dir.holds_split P2.holds p3 (pt_index_mem virt 2)
  obtain ⟨r2,e2,s2⟩ := Dir.holds_split P1.holds p2 (pt_index_mem virt 1)
  obtain ⟨r1,e1,s1⟩ := p1.holds_split (pt_index_mem virt 0)
  rw [h3] at e4
  rw [h2] at e3
  rw [h1] at e2
  refine ⟨r4 + (r3 + (r2 + r1)),?_,?_⟩
  · calc p4.holds = r4 + p3.holds := e4
      _ = r4 + (r3 + p2.holds) := congrArg (r4 + ·) e3
      _ = r4 + (r3 + (r2 + p1.holds)) := congrArg (fun x => r4 + (r3 + x)) e2
      _ = r4 + (r3 + (r2 + r1)) + entry (p1.ptes (ptIndex virt 0)) := by
        rw [e1]
        simp only [add_assoc]
  · intro pte
    calc _ = r4 + P3.holds (p3.set _ _) := s4 _ _
      _ = r4 + (r3 + P2.holds (p2.set _ _)) := congrArg (r4 + ·) (s3 _ _)
      _ = r4 + (r3 + (r2 + P1.holds (p1.set _ _))) := congrArg (fun x => r4 + (r3 + x)) (s2 _ _)
      _ = r4 + (r3 + (r2 + r1)) + entry pte := by
        rw [s1]
        simp only [add_assoc]

end Miku.Mm
