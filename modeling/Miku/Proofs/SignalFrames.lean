import Mathlib.Tactic.SplitIfs
import Miku.Lib.Bits
import Miku.Lib.Run
import Miku.Process.Signal

namespace Miku.Process.Context
open Lib

variable {c t s : Context}

/-- The user context is the one interrupted, up to the flags not kept. -/
def Same (s t : Context) : Prop :=
  t.rip = s.rip ∧ t.rsp = s.rsp ∧ t.rax = s.rax ∧ t.rflags &&& 0xCD5#64 = s.rflags &&& 0xCD5#64

/-- The delivery changes no byte above the end of the red zone. -/
def Untouched (c : Context) : Prop := ∀ a, c.rsp.toNat ≤ a + 128 → c.deliverPending.mem a = c.mem a

/-- Over any number of signals, each delivery leaves the bytes from the red zone on alone,
and the return from each handler restores the interrupted context `s`. -/
def Transparent (s : Context) (arrivals : List (BitVec 32)) : Prop :=
  Along step (fun t _ => t.redirects → (t.serve.killed = none ∧ Same s t.serve) ∧ Untouched t) s arrivals

/-- A signal will be delivered: there is an entry, no delivery is under way, one is pending,
and the stack has room for the frame. -/
def Due (c : Context) (sig : Nat) : Prop :=
  c.killed = none ∧ c.sigEntry ≠ 0 ∧ c.sigInDelivery = false ∧ lowest c.pendingSig = some sig ∧
    c.userPtrWritable c.frame 40

/-- If one is delivered, the context is in the user half, and where the frame goes its bytes
already stand. -/
def Spared (c : Context) : Prop :=
  ∀ sig, c.Due sig →
    c.rip.toNat ≤ userMax ∧ c.rsp.toNat ≤ userMax ∧
      Holds c.mem c.frame ((c.frameWords sig).flatMap le64Bytes)

theorem Same.refl : Same s s := ⟨rfl,rfl,rfl,rfl⟩

theorem Same.symm (h : Same s t) : Same t s := ⟨h.1.symm,h.2.1.symm,h.2.2.1.symm,h.2.2.2.symm⟩

theorem Same.trans (h : Same s t) (h' : Same t u) : Same s u :=
  ⟨h'.1.trans h.1,h'.2.1.trans h.2.1,h'.2.2.1.trans h.2.2.1,h'.2.2.2.trans h.2.2.2⟩

theorem deliver_of_due (h : c.Due sig) : c.deliverPending = { c with
        pendingSig := c.pendingSig &&& ~~~(1#32 <<< sig)
        mem := put c.mem c.frame ((c.frameWords sig).flatMap le64Bytes)
        sigInDelivery := true
        rip := c.sigEntry
        rsp := BitVec.ofNat 64 c.frame } := by
  obtain ⟨-,hentry,hin,hsig,hw⟩ := h
  rw [deliverPending,if_neg (not_or.mpr ⟨hentry,by simp [hin]⟩)]
  simp only [hsig]
  rw [if_neg]
  · rfl
  · simpa [userPtrWritable,frame,SIGFRAME_WORDS] using hw

theorem redirects_iff : c.redirects ↔ ∃ sig, c.Due sig := by
  constructor
  · intro h
    simp only [redirects,Bool.and_eq_true,Option.isNone_iff_eq_none,Bool.not_eq_true'] at h
    obtain ⟨⟨hk,hin⟩,hd⟩ := h
    rw [deliverPending] at hd
    split at hd
    · rw [hin] at hd
      cases hd
    · next hentry =>
      split at hd
      · rw [hin] at hd
        cases hd
      · next sig hsig =>
        dsimp only at hd
        split at hd
        · rw [hin] at hd
          cases hd
        · next hw =>
          refine ⟨sig,hk,by simp_all,hin,hsig,?_⟩
          simpa [userPtrWritable,frame,SIGFRAME_WORDS] using hw
  · rintro ⟨sig,h⟩
    simp [redirects,deliver_of_due h,h.1,h.2.2.1]

theorem deliver_same (h : ¬c.redirects) (hk : c.killed = none) :
    c.deliverPending.killed = none → Same c c.deliverPending := by
  intro hd
  rw [deliverPending] at hd ⊢
  split
  · exact .refl
  · next hentry =>
    rw [if_neg hentry] at hd
    split
    · exact .refl
    · next sig hsig =>
      simp only [hsig] at hd ⊢
      split
      · exact ⟨rfl,rfl,rfl,rfl⟩
      · next hw =>
        refine absurd (redirects_iff.mpr ⟨sig,hk,by simp_all,by simp_all,hsig,?_⟩) h
        simpa [userPtrWritable,frame,SIGFRAME_WORDS] using hw

theorem checkRange_isSome {f : List Nat → Bool} (h : (checkRange ptr len).any f) :
    ptr ≠ 0 ∧ ptr + len ≤ userMax + 1 := by
  rw [checkRange] at h
  split_ifs at h
  all_goals first
    | cases h
    | exact ⟨by omega,by omega⟩

/-- The frame lies in the user half, in the first 56 bytes below the stack pointer. -/
theorem Due.frame (h : c.Due sig) :
    c.frame + 40 ≤ c.rsp.toNat ∧ c.rsp.toNat < c.frame + 56 ∧ c.frame + 40 ≤ userMax + 1 := by
  have hend : c.frame + 40 ≤ userMax + 1 := (checkRange_isSome h.2.2.2.2).2
  have hrsp := c.rsp.isLt
  simp only [Context.frame,BitVec.toNat_sub,BitVec.toNat_ofNat,userMax] at hend ⊢
  omega

theorem length_frame : ((c.frameWords sig).flatMap le64Bytes).length = 40 := rfl

theorem mapped_of_userPtrWritable (h : c.userPtrWritable ptr len) : c.userPtrMapped ptr len := by
  rw [userPtrWritable] at h
  rw [userPtrMapped]
  cases hr : checkRange ptr len with
  | none =>
    rw [hr] at h
    cases h
  | some pages =>
    rw [hr] at h
    simp only [Option.any_some,List.all_eq_true] at h ⊢
    exact fun p hp => c.mapped_of_writable p (h p hp)

section

variable (h : c.Due sig)
include h

theorem word_deliver {w : BitVec 64}
    (hw : (c.frameWords sig)[i]? = some w.toNat) : c.deliverPending.word c.frame i = w := by
  obtain ⟨hi,hw⟩ := List.getElem?_eq_some_iff.mp hw
  have hholds : Holds c.deliverPending.mem c.frame ((c.frameWords sig).flatMap le64Bytes) := by
    rw [deliver_of_due h]
    exact holds_put
  rw [word,le64_of_holds_flatMap hholds i hi,hw]
  apply BitVec.eq_of_toNat_eq
  rw [BitVec.toNat_ofNat,Nat.mod_mod,Nat.mod_eq_of_lt w.isLt]

theorem rsp_deliver : c.deliverPending.rsp.toNat = c.frame := by
  have := h.frame
  rw [deliver_of_due h,BitVec.toNat_ofNat]
  simp only [userMax] at this
  omega

theorem mapped_deliver : c.deliverPending.userPtrMapped c.frame (SIGFRAME_WORDS * 8) := by
  have hm : c.userPtrMapped c.frame 40 := mapped_of_userPtrWritable h.2.2.2.2
  rw [deliver_of_due h]
  exact hm

/-- The handler's return restores the context, and kills the process if it is not one of the
user half. -/
theorem serve_of_due :
    c.serve.killed = none ∧ Same c c.serve ↔ c.rip.toNat ≤ userMax ∧ c.rsp.toNat ≤ userMax := by
  have hserve : c.serve = c.deliverPending.sysSigreturn c.frame := by
    rw [serve,if_neg (by simp [h.1]),if_pos (redirects_iff.mpr ⟨sig,h⟩),rsp_deliver h]
  have hrip : c.deliverPending.word c.frame 1 = c.rip := word_deliver h rfl
  have hrsp : c.deliverPending.word c.frame 2 = c.rsp := word_deliver h rfl
  have hrax : c.deliverPending.word c.frame 3 = c.rax := word_deliver h rfl
  have hflags : c.deliverPending.word c.frame 4 = c.rflags := word_deliver h rfl
  have hkill : c.deliverPending.killed = none := by
    rw [deliver_of_due h]
    exact h.1
  rw [hserve,sysSigreturn,if_neg (by simp [mapped_deliver h]),hrip,hrsp,hrax,hflags]
  split
  · next hout => exact ⟨fun hk => (nomatch hk.1),fun hin => by omega⟩
  · next hin =>
    refine ⟨fun _ => by omega,fun _ => ⟨hkill,rfl,rfl,rfl,?_⟩⟩
    rw [Bits.or_and_of_disjoint _ (by decide),Bits.and_and_of_sub _ (by decide)]

/-- Every byte of the frame is one of the red zone. -/
theorem untouched_iff :
    c.Untouched ↔ Holds c.mem c.frame ((c.frameWords sig).flatMap le64Bytes) := by
  have hf := h.frame
  have hmem : c.deliverPending.mem = put c.mem c.frame ((c.frameWords sig).flatMap le64Bytes) := by
    rw [deliver_of_due h]
  rw [Untouched,hmem]
  constructor
  · intro hu
    exact holds_put.congr fun i hlo hhi => (hu i (by omega)).symm
  · intro hh a _
    by_cases ha : c.frame ≤ a ∧ a < c.frame + 40
    · obtain ⟨k,rfl⟩ := Nat.exists_eq_add_of_le ha.1
      have hk : k < ((c.frameWords sig).flatMap le64Bytes).length := by
        rw [length_frame]
        omega
      rw [put_at k hk,hh k hk]
    · exact put_other (by rw [length_frame]; omega)

end

theorem serve_same (h : c.killed = none) (hr : c.redirects → c.serve.killed = none ∧ Same c c.serve)
    (hk : c.serve.killed = none) : Same c c.serve := by
  by_cases hred : c.redirects
  · exact (hr hred).2
  · rw [serve,if_neg (by simp [h]),if_neg hred] at hk ⊢
    exact deliver_same hred h hk

/-- A process with an empty stack and a child that has ended. -/
def plain : Context where
  rip := 0x401000
  rsp := 0x7000
  rax := 0
  rflags := 0x202
  mem := zeroBytes
  mapped _ := true
  writable _ := true
  mapped_of_writable _ _ := rfl
  sigEntry := 0x402000
  sigInDelivery := false
  pendingSig := 1#32 <<< 17
  killed := none

end Miku.Process.Context
