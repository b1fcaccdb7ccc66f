import Mathlib.Data.Vector.Defs
import Miku.Process.Stack

namespace Miku.Process
open Lib Descent
open List hiding Vector

section Pushes

variable {r : EagerStack} {s : Descent}

theorem pushCstr_eq (b : List UInt8) : pushCstr r b s = s.push r.base r.phys (b ++ [0]) := by
  cases ho : s.overflow with
  | true => simp only [pushCstr,push,ho,↓reduceIte]
  | false =>
    simp only [pushCstr,push,ho,Bool.false_eq_true,↓reduceIte,length_append,
      length_singleton]
    split
    · rfl
    · have hsp : s.sp - 1 - b.length = s.sp - (b.length + 1) := by omega
      have hat : hostOf r.base r.phys (s.sp - 1) =
          hostOf r.base r.phys (s.sp - (b.length + 1)) + b.length := by
        unfold hostOf
        omega
      rw [hsp,put_append,hat,put_comm .refl]

def cstr (b : List UInt8) : List UInt8 := b ++ [0]

@[simp] theorem length_cstr (b : List UInt8) : (cstr b).length = b.length + 1 := by simp [cstr]

theorem pushCstrs_snd (bs : List (List UInt8)) :
    (pushCstrs r bs s).2 = s.pushAll r.base r.phys (bs.map cstr) := by
  induction bs generalizing s with
  | nil => rfl
  | cons b bs ih =>
    simp [pushCstrs,pushAll_cons,ih,pushCstr_eq,cstr]

@[simp] theorem length_pushCstrs (bs : List (List UInt8)) :
    (pushCstrs r bs s).1.length = bs.length := by
  induction bs generalizing s with
  | nil => rfl
  | cons b bs ih => simp only [pushCstrs,length_cons,ih]

theorem pushCstrs_fst (bs : List (List UInt8)) (h : s.overflow = false)
    (hf : r.base + totalLength (bs.map cstr) ≤ s.sp) :
    (pushCstrs r bs s).1 = places s.sp (bs.map cstr) := by
  induction bs generalizing s with
  | nil => rfl
  | cons b bs ih =>
    rw [map_cons,totalLength_cons] at hf
    have hp := @push_of_fit _ r.phys _ _ h (by omega : r.base + (cstr b).length ≤ s.sp)
    have hb : pushCstr r b s = s.push r.base r.phys (cstr b) := pushCstr_eq b
    simp only [pushCstrs,map_cons,places,hb,hp]
    rw [ih rfl (by dsimp only; omega)]

theorem pushWords_eq (ws : List Nat) :
    pushWords r ws s = s.pushAll r.base r.phys (ws.reverse.map le64Bytes) := by
  rw [pushWords,pushAll,foldl_map]
  rfl

theorem pushAuxv_eq (aux : List (Nat × Nat)) :
    aux.reverse.foldl (fun s kv => pushU64 r kv.1 (pushU64 r kv.2 s)) s =
      s.pushAll r.base r.phys ((aux.flatMap fun kv => [kv.1,kv.2]).reverse.map le64Bytes) := by
  induction aux with
  | nil => rfl
  | cons kv aux ih =>
    rw [reverse_cons,foldl_append,ih,flatMap_cons,reverse_append,
      map_append,pushAll_append]
    rfl

end Pushes

structure Pointers where
  random : Nat
  execfn : Nat
  platform : Nat
  argv : List Nat
  envp : List Nat

/-- The words below the strings, from the stack pointer up. -/
def stackWords (x : AuxInfo) (p : Pointers) : List Nat :=
  p.argv.length :: (p.argv ++ 0 :: (p.envp ++ 0 ::
    (auxv x p.random p.platform p.execfn).flatMap fun kv => [kv.1,kv.2]))

/-- The pieces of the string area in the order they are pushed. -/
def stackStrings (random : Vector UInt8 16) (path : List UInt8) (args envs : List (List UInt8)) :
    List (List UInt8) :=
  [random.toList,cstr path,cstr platform] ++ ((argStrings path args).map cstr ++ envs.map cstr)

/-- The stack pointer is lowered until it is aligned behind `n` more words. -/
def lowered (n : Nat) (s : Descent) : Descent :=
  { s with sp := if n % 2 = 1 then s.sp / 16 * 16 - 8 else s.sp / 16 * 16 }

def pushBlock (r : EagerStack) (ws : List Nat) (s : Descent) : Descent :=
  (lowered ws.length s).pushAll r.base r.phys (ws.reverse.map le64Bytes)

/-- The strings and counts are within the limits. -/
def WithinLimits (path : List UInt8) (args envs : List (List UInt8)) : Prop :=
  args.length + envs.length ≤ argMaxVectorEntries ∧ strBytes path args envs ≤ argMaxStringBytes

section Blocks

variable {r : EagerStack} {random : Vector UInt8 16} {path : List UInt8}
  {args envs : List (List UInt8)} {x : AuxInfo} {mem : Bytes}

@[simp] theorem length_argStrings : (argStrings path args).length = max args.length 1 := by
  simp [argStrings]

theorem length_stackWords (p : Pointers) :
    (stackWords x p).length = p.argv.length + p.envp.length + 43 := by
  simp only [stackWords,auxv,flatMap_cons,flatMap_nil,length_cons,
    length_append,length_nil]
  omega

def pointers (r : EagerStack) (random : Vector UInt8 16) (path : List UInt8)
    (args envs : List (List UInt8)) (s : Descent) : Pointers :=
  let randomAt := pushBytes r random.toList s
  let execfnAt := pushCstr r path randomAt
  let platformAt := pushCstr r platform execfnAt
  let argv := pushCstrs r (argStrings path args) platformAt
  ⟨randomAt.sp,execfnAt.sp,platformAt.sp,argv.1,(pushCstrs r envs argv.2).1⟩

theorem pushBlock_stackWords (p : Pointers) (s : Descent) : pushBlock r (stackWords x p) s =
      pushU64 r p.argv.length (pushWords r p.argv (pushU64 r 0 (pushWords r p.envp (pushU64 r 0
        ((auxv x p.random p.platform p.execfn).reverse.foldl
          (fun s kv => pushU64 r kv.1 (pushU64 r kv.2 s))
          (lowered (p.argv.length + p.envp.length + 43) s)))))) := by
  rw [pushBlock,length_stackWords,pushAuxv_eq,pushWords_eq,pushWords_eq,stackWords]
  simp only [reverse_cons,reverse_append,map_append,pushAll_append,append_assoc]
  rfl

theorem lowered_eq (n : Nat) (s : Descent) : lowered n s =
      if n % 2 = 1 then { s with sp := s.sp / 16 * 16 - 8 } else { s with sp := s.sp / 16 * 16 } := by
  simp only [lowered]
  split <;> rfl

variable {s : Descent}

theorem length_pointers : (pointers r random path args envs s).argv.length = max args.length 1 ∧
      (pointers r random path args envs s).envp.length = envs.length := by
  simp [pointers]

theorem pushAll_stackStrings (s : Descent) :
    s.pushAll r.base r.phys (stackStrings random path args envs) =
      (pushCstrs r envs (pushCstrs r (argStrings path args) (pushCstr r platform
        (pushCstr r path (pushBytes r random.toList s)))).2).2 := by
  simp [stackStrings,pushCstr_eq,pushBytes,pushCstrs_snd,pushAll_append,pushAll_cons,cstr]

theorem fillStack_eq (s : Descent) : fillStack r random path args envs x s =
      pushBlock r (stackWords x (pointers r random path args envs s))
        (s.pushAll r.base r.phys (stackStrings random path args envs)) := by
  have hwords : max args.length 1 + envs.length + 43 =
      20 * 2 + (envs.length + 1) + (max args.length 1 + 1) + 1 := by omega
  rw [pushBlock_stackWords,length_pointers.1,length_pointers.2,hwords,lowered_eq,
    pushAll_stackStrings]
  rfl

theorem argStrings_of_ne (h : args ≠ []) : argStrings path args = args := by
  have hl : max args.length 1 = args.length := Nat.max_eq_left (length_pos_iff.2 h)
  apply ext_getElem
  · rw [length_argStrings,hl]
  · intro i h₁ h₂
    simp only [argStrings,getElem_map,getElem_range,getElem?_eq_getElem h₂,
      Option.getD_some]

theorem argStrings_nil : argStrings path [] = [path] := rfl

/-- The strings and words as they are pushed, each area rounded up. -/
def Fits (path : List UInt8) (args envs : List (List UInt8)) : Prop :=
  (strBytes path (argStrings path args) envs + 15) / 16 * 16 +
    (max args.length 1 + envs.length + 44) / 2 * 16 ≤ eagerSize

theorem totalLength_map_cstr (bs : List (List UInt8)) :
    totalLength (bs.map cstr) = (bs.map fun b => b.length + 1).sum := by
  simp only [totalLength,map_map]
  congr 2
  funext b
  exact length_cstr b

theorem totalLength_stackStrings : totalLength (stackStrings random path args envs) =
      strBytes path (argStrings path args) envs := by
  simp only [stackStrings,totalLength_append,totalLength_cons,totalLength_nil,
    totalLength_map_cstr,length_cstr,Vector.length_toList,strBytes,platform,length_cons,
    length_nil]
  omega

theorem totalLength_words (ws : List Nat) :
    totalLength (ws.reverse.map le64Bytes) = 8 * ws.length := by
  induction ws with
  | nil => rfl
  | cons w ws ih =>
    rw [reverse_cons,map_append,totalLength_append,ih]
    simp only [map_cons,map_nil,totalLength_cons,totalLength_nil,length_le64Bytes,
      length_cons]
    omega

/-- Rounding down from an aligned end is rounding up what lies above. -/
theorem lowered_room {base top n total : Nat} (ht : top % 16 = 0) (hb : base % 16 = 0)
    (hbase : 8 ≤ base) (hle : base + total ≤ top) {sp : Nat}
    (hsp : sp = if n % 2 = 1 then (top - total) / 16 * 16 - 8 else (top - total) / 16 * 16) :
    base + 8 * n ≤ sp ↔ base + ((total + 15) / 16 * 16 + (n + 1) / 2 * 16) ≤ top := by
  subst hsp
  split <;> omega

def startOf (r : EagerStack) (mem : Bytes) : Descent := ⟨r.top,false,mem⟩

@[simp] theorem startOf_sp : (startOf r mem).sp = r.top := rfl

theorem base_add (r : EagerStack) : r.base + eagerSize = r.top := by
  have := r.room
  unfold EagerStack.base
  omega

theorem base_facts (r : EagerStack) : r.base % 16 = 0 ∧ r.top % 16 = 0 ∧ 8 ≤ r.base := by
  have h₁ := r.aligned
  have h₂ := r.room
  have h₃ := base_add r
  have h₄ : eagerSize = 262144 := rfl
  rw [h₄] at h₂ h₃
  omega

variable {ws : List Nat}

theorem overflow_pushBlock (h : s.overflow = true) : (pushBlock r ws s).overflow = true := by
  have hl : (lowered ws.length s).overflow = true := h
  rw [pushBlock,pushAll_of_overflow hl,hl]

section

variable (hs : strBytes path (argStrings path args) envs ≤ eagerSize)
include hs

theorem room_iff (hsp : s.sp = r.top - strBytes path (argStrings path args) envs)
    (hn : n = max args.length 1 + envs.length + 43) :
    r.base + 8 * n ≤ (lowered n s).sp ↔ Fits path args envs := by
  obtain ⟨hb,ht,h8⟩ := base_facts r
  have ha := base_add r
  have hle : r.base + strBytes path (argStrings path args) envs ≤ r.top := by omega
  rw [@lowered_room _ _ _ _ ht hb h8 hle (lowered n s).sp (by simp [lowered,hsp]),Fits,hn]
  omega

theorem strings_pushed : Pushed r.base r.phys (stackStrings random path args envs) (startOf r mem)
      ((startOf r mem).pushAll r.base r.phys (stackStrings random path args envs)) := by
  refine pushed_of_fit rfl ?_
  rw [totalLength_stackStrings,startOf_sp]
  have := base_add r
  omega

theorem sp_strings :
    ((startOf r mem).pushAll r.base r.phys (stackStrings random path args envs)).sp =
      r.top - strBytes path (argStrings path args) envs := by
  rw [(strings_pushed hs).sp,totalLength_stackStrings,startOf_sp]

end

theorem length_stackWords_pointers {s : Descent} :
    (stackWords x (pointers r random path args envs s)).length =
      max args.length 1 + envs.length + 43 := by
  rw [length_stackWords,length_pointers.1,length_pointers.2]

theorem overflow_fillStack (hf : ¬ Fits path args envs) :
    (fillStack r random path args envs x (startOf r mem)).overflow = true := by
  have ha := base_add r
  rw [fillStack_eq]
  by_cases hs : strBytes path (argStrings path args) envs ≤ eagerSize
  · refine overflow_pushAll_of_lt (.inr ?_) ?_
    · simp [stackWords]
    · rw [totalLength_words,← Nat.not_le]
      exact fun h => hf ((room_iff hs (sp_strings hs) length_stackWords_pointers).1 h)
  · refine overflow_pushBlock (overflow_pushAll_of_lt (.inl ?_) ?_)
    · rw [startOf_sp]
      omega
    · rw [totalLength_stackStrings,startOf_sp]
      omega

theorem sp_pushAll_of_fit {s : Descent} (h : s.overflow = false)
    (hf : r.base + totalLength cs ≤ s.sp) :
    (s.pushAll r.base r.phys cs).sp = s.sp - totalLength cs ∧
      (s.pushAll r.base r.phys cs).overflow = false :=
  ⟨(pushed_of_fit h hf).sp,(pushed_of_fit h hf).overflow⟩

/-- The addresses of all strings in the order they are pushed. -/
def Pointers.all (p : Pointers) : List Nat :=
  p.random :: p.execfn :: p.platform :: (p.argv ++ p.envp)

theorem all_pointers (h : s.overflow = false)
    (hf : r.base + totalLength (stackStrings random path args envs) ≤ s.sp) :
    (pointers r random path args envs s).all =
      places s.sp (stackStrings random path args envs) := by
  simp only [stackStrings,totalLength_append,totalLength_cons,totalLength_nil] at hf
  have h₁ : pushBytes r random.toList s = s.pushAll r.base r.phys [random.toList] := rfl
  have h₂ : pushCstr r path (s.pushAll r.base r.phys [random.toList]) =
      s.pushAll r.base r.phys [random.toList,cstr path] := pushCstr_eq path
  have h₃ : pushCstr r platform (s.pushAll r.base r.phys [random.toList,cstr path]) =
      s.pushAll r.base r.phys [random.toList,cstr path,cstr platform] := pushCstr_eq platform
  have p₁ := @sp_pushAll_of_fit r [random.toList] _ h
    (by simp only [totalLength_cons,totalLength_nil]; omega)
  have p₂ := @sp_pushAll_of_fit r [random.toList,cstr path] _ h
    (by simp only [totalLength_cons,totalLength_nil]; omega)
  have p₃ := @sp_pushAll_of_fit r [random.toList,cstr path,cstr platform] _ h
    (by simp only [totalLength_cons,totalLength_nil]; omega)
  simp only [totalLength_cons,totalLength_nil] at p₁ p₂ p₃
  have p₄ := @sp_pushAll_of_fit r ((argStrings path args).map cstr) _ p₃.2 (by omega)
  rw [p₃.1] at p₄
  have ha := pushCstrs_fst (r := r) (argStrings path args) p₃.2 (by omega)
  have he := pushCstrs_fst (r := r) envs p₄.2 (by omega)
  simp only [Pointers.all,pointers,h₃,h₂,h₁,pushCstrs_snd,ha,he,p₁.1,p₂.1,p₃.1,p₄.1,stackStrings,
    places_append,places,cons_append,nil_append,
    Nat.sub_sub,add_zero,add_assoc]

/-- Where the strings are and how long they are. -/
def stringAreas (p : Pointers) (random : Vector UInt8 16) (path : List UInt8)
    (args envs : List (List UInt8)) : List (Nat × Nat) :=
  p.all.zip ((stackStrings random path args envs).map List.length)

/-- The stack a program starts with. -/
structure Laid (r : EagerStack) (m : Bytes) (random : Vector UInt8 16) (path : List UInt8)
    (args envs : List (List UInt8)) (x : AuxInfo) (p : Pointers) (sp : Nat) : Prop where
  aligned : sp % 16 = 0
  inside : r.base ≤ sp
  words : ∀ (k : Nat) (h : k < (stackWords x p).length),
    le64 m (hostOf r.base r.phys (sp + 8 * k)) = (stackWords x p)[k]
  randomBytes : Holds m (hostOf r.base r.phys p.random) random.toList
  execfn : Holds m (hostOf r.base r.phys p.execfn) (cstr path)
  platform : Holds m (hostOf r.base r.phys p.platform) (cstr platform)
  argv : List.Forall₂ (fun va b => Holds m (hostOf r.base r.phys va) (cstr b)) p.argv
    (argStrings path args)
  envp : List.Forall₂ (fun va b => Holds m (hostOf r.base r.phys va) (cstr b)) p.envp envs
  apart : (stringAreas p random path args envs).Pairwise fun a b => b.1 + b.2 ≤ a.1
  above : ∀ a ∈ stringAreas p random path args envs,
    sp + 8 * (stackWords x p).length ≤ a.1 ∧ a.1 + a.2 ≤ r.top

variable {p : Pointers}

theorem stackWords_lt (hp : ∀ a ∈ p.all, a < 18446744073709551616)
    (hn : p.argv.length < 18446744073709551616) :
    ∀ w ∈ stackWords x p, w < 18446744073709551616 := by
  intro w hw
  have hr := hp p.random (by simp [Pointers.all])
  have he := hp p.execfn (by simp [Pointers.all])
  have hpl := hp p.platform (by simp [Pointers.all])
  simp only [stackWords,mem_cons,mem_append] at hw
  rcases hw with rfl | hw | rfl | hw | rfl | hw
  · exact hn
  · exact hp w (by simp [Pointers.all,hw])
  · omega
  · exact hp w (by simp [Pointers.all,hw])
  · omega
  · have h1 := x.phdrVaddr.toNat_lt
    have h2 := x.phentsize.toNat_lt
    have h3 := x.phdrCount.toNat_lt
    have h4 := x.interpBase.toNat_lt
    have h5 := x.exeEntry.toNat_lt
    have h6 := x.hwcap.toNat_lt
    simp only [auxv,flatMap_cons,flatMap_nil,cons_append,nil_append,
      mem_cons,not_mem_nil,or_false,atNull,atPhdr,atPhent,atPhnum,atPagesz,atBase,
      atFlags,atEntry,atUid,atEuid,atGid,atEgid,atPlatform,atHwcap,atClktck,atSecure,atRandom,
      atHwcap2,atExecfn,atMinsigstksz,timerHzDefault] at hw
    omega

theorem strings_of_places (hn : p.argv.length = (argStrings path args).length)
    (h : List.Forall₂ (fun va c => Holds m (hostOf r.base r.phys va) c) p.all
      (stackStrings random path args envs)) :
    Holds m (hostOf r.base r.phys p.random) random.toList ∧
      Holds m (hostOf r.base r.phys p.execfn) (cstr path) ∧
      Holds m (hostOf r.base r.phys p.platform) (cstr platform) ∧
      List.Forall₂ (fun va b => Holds m (hostOf r.base r.phys va) (cstr b)) p.argv
        (argStrings path args) ∧
      List.Forall₂ (fun va b => Holds m (hostOf r.base r.phys va) (cstr b)) p.envp envs := by
  simp only [Pointers.all,stackStrings,cons_append,nil_append,forall₂_cons] at h
  obtain ⟨h₁,h₂,h₃,h⟩ := h
  have hl : ((argStrings path args).map cstr).length = p.argv.length := by simp [hn]
  have ha := forall₂_take_append _ _ _ h
  have he := forall₂_drop_append _ _ _ h
  rw [hl,take_left,forall₂_map_right_iff] at ha
  rw [hl,drop_left,forall₂_map_right_iff] at he
  exact ⟨h₁,h₂,h₃,ha,he⟩

/-- The words below the strings: where the stack pointer comes to lie and what it
points to. -/
theorem pushBlock_of_room (ho : s.overflow = false)
    (hroom : r.base + 8 * ws.length ≤ (lowered ws.length s).sp) :
    (pushBlock r ws s).overflow = false ∧ (pushBlock r ws s).sp % 16 = 0 ∧
      r.base ≤ (pushBlock r ws s).sp ∧ (pushBlock r ws s).sp + 8 * ws.length ≤ s.sp ∧
      Holds (pushBlock r ws s).mem (hostOf r.base r.phys (pushBlock r ws s).sp)
        (ws.flatMap le64Bytes) ∧
      ∀ i, hostOf r.base r.phys s.sp ≤ i → (pushBlock r ws s).mem i = s.mem i := by
  obtain ⟨hb16,-,h8⟩ := base_facts r
  have hw := @pushed_of_fit _ r.phys (ws.reverse.map le64Bytes) (lowered ws.length s) ho
      (by rw [totalLength_words]; exact hroom)
  have hsp := hw.sp
  have hblock := hw.block
  rw [totalLength_words] at hsp
  rw [← map_reverse,reverse_reverse,← flatMap_def] at hblock
  have hlow : (lowered ws.length s).sp =
      if ws.length % 2 = 1 then s.sp / 16 * 16 - 8 else s.sp / 16 * 16 := rfl
  have hle : (lowered ws.length s).sp ≤ s.sp := by
    rw [hlow]
    split <;> omega
  refine ⟨hw.overflow,?_,?_,?_,hblock,fun i hi => ?_⟩
  · rw [pushBlock,hsp,hlow]
    rw [hlow] at hroom
    split at hroom <;> split <;> omega
  · rw [pushBlock,hsp]
    omega
  · rw [pushBlock,hsp]
    omega
  · rw [pushBlock,hw.frame i (.inr _)]
    · rfl
    · unfold hostOf at *
      omega

theorem laid_fillStack (hf : Fits path args envs) :
    (fillStack r random path args envs x (startOf r mem)).overflow = false ∧
      Laid r (fillStack r random path args envs x (startOf r mem)).mem random path args envs x
        (pointers r random path args envs (startOf r mem))
        (fillStack r random path args envs x (startOf r mem)).sp := by
  have ha := base_add r
  have hs : strBytes path (argStrings path args) envs ≤ eagerSize := by
    unfold Fits at hf
    omega
  have hfit : r.base + totalLength (stackStrings random path args envs) ≤ r.top := by
    rw [totalLength_stackStrings]
    omega
  have hsp := @sp_strings r random _ _ _ mem hs
  have hstr := @strings_pushed r random _ _ _ mem hs
  have hlen := @length_stackWords_pointers r random path args envs x (startOf r mem)
  have hall : (pointers r random path args envs (startOf r mem)).all = _ := all_pointers rfl hfit
  have hargv : (pointers r random path args envs (startOf r mem)).argv.length =
      max args.length 1 := length_pointers.1
  rw [fillStack_eq]
  generalize (startOf r mem).pushAll r.base r.phys (stackStrings random path args envs) = s₁
    at hsp hstr ⊢
  generalize pointers r random path args envs (startOf r mem) = p at *
  obtain ⟨ho,h16,hbase,habove,hblock,hframe⟩ :=
    pushBlock_of_room hstr.overflow ((room_iff hs hsp hlen).2 hf)
  generalize pushBlock r (stackWords x p) s₁ = s₂ at *
  have hplaces : List.Forall₂ (fun va c => Holds s₂.mem (hostOf r.base r.phys va) c) p.all
      (stackStrings random path args envs) := by
    rw [hall]
    refine holds_places hfit ?_
    rw [startOf_sp,totalLength_stackStrings,← hsp]
    exact hstr.block.congr fun i hi _ => hframe i hi
  obtain ⟨h₁,h₂,h₃,h₄,h₅⟩ := strings_of_places (by rw [hargv,length_argStrings]) hplaces
  have hareas : stringAreas p random path args envs =
      areas r.top (stackStrings random path args envs) := by
    rw [stringAreas,hall,areas,startOf_sp]
  refine ⟨ho,h16,hbase,fun k hk => ?_,h₁,h₂,h₃,h₄,h₅,?_,fun a hm => ?_⟩
  · have hlt : (stackWords x p)[k] < 18446744073709551616 := by
      refine stackWords_lt (fun a hm => ?_) ?_ _ (getElem_mem hk)
      · rw [hall] at hm
        exact Nat.lt_of_le_of_lt (places_le a hm) r.small
      · have : eagerSize = 262144 := rfl
        unfold Fits at hf
        omega
    have hat : hostOf r.base r.phys (s₂.sp + 8 * k) = hostOf r.base r.phys s₂.sp + 8 * k := by
      unfold hostOf
      omega
    rw [hat,le64_of_holds_flatMap hblock k hk,Nat.mod_eq_of_lt hlt]
  · rw [hareas]
    exact areas_apart (by omega)
  · rw [hareas] at hm
    have := areas_within (by omega) a hm
    rw [totalLength_stackStrings,← hsp] at this
    omega

theorem inside_fillStack :
    Inside r.base r.phys r.top mem (fillStack r random path args envs x (startOf r mem)) := by
  have h₀ : Inside r.base r.phys r.top mem (startOf r mem) := ⟨.refl,fun _ _ => rfl⟩
  rw [fillStack_eq,pushBlock]
  refine Inside.pushAll (h₀.pushAll.lower ?_)
  split <;> omega

theorem setupStack_frame (h : a < r.phys ∨ r.phys + eagerSize ≤ a) :
    (setupStack r random path args envs x mem).2 a = mem a := by
  have hend : hostOf r.base r.phys r.top = r.phys + eagerSize := by
    have := base_add r
    unfold hostOf
    omega
  unfold setupStack
  split
  · rfl
  · split
    · rfl
    · exact inside_fillStack.frame a (h.imp id fun h => by rw [hend]; exact h)

theorem setupStack_of_not_within (h : ¬ WithinLimits path args envs) :
    (setupStack r random path args envs x mem).1 = none := by
  unfold setupStack
  split
  · rfl
  · split
    · rfl
    · exact absurd ⟨by omega,by omega⟩ h

theorem setupStack_of_within (h : WithinLimits path args envs) :
    (setupStack r random path args envs x mem).1 =
        (if (fillStack r random path args envs x (startOf r mem)).overflow then none
          else some (fillStack r random path args envs x (startOf r mem)).sp) ∧
      (setupStack r random path args envs x mem).2 =
        (fillStack r random path args envs x (startOf r mem)).mem := by
  rw [setupStack,if_neg (Nat.not_lt.2 h.1),if_neg (Nat.not_lt.2 h.2)]
  exact ⟨rfl,rfl⟩

/-- With arguments the limits leave enough room; without any, the path is pushed once more
than it was counted. -/
theorem fits_of_within (h : WithinLimits path args envs) (hne : args ≠ []) :
    Fits path args envs := by
  obtain ⟨hn,hb⟩ := h
  have hl : 0 < args.length := length_pos_iff.2 hne
  rw [Fits,argStrings_of_ne hne]
  unfold argMaxVectorEntries at hn
  unfold argMaxStringBytes at hb
  have : eagerSize = 262144 := rfl
  omega

end Blocks

/-- A call that keeps to its region and lays the stack out exactly when the limits are met. -/
structure StackOk (r : EagerStack) (random : Vector UInt8 16) (path : List UInt8)
    (args envs : List (List UInt8)) (x : AuxInfo) (mem : Bytes) : Prop where
  frame : ∀ a, a < r.phys ∨ r.phys + eagerSize ≤ a →
    (setupStack r random path args envs x mem).2 a = mem a
  laid : WithinLimits path args envs → ∃ sp p,
    (setupStack r random path args envs x mem).1 = some sp ∧
      Laid r (setupStack r random path args envs x mem).2 random path args envs x p sp
  refused : ¬ WithinLimits path args envs → (setupStack r random path args envs x mem).1 = none

/-- Without arguments the path is pushed a second time, and may not have been counted. -/
theorem setupStack_iff (r : EagerStack) (random : Vector UInt8 16) (path : List UInt8)
    (args envs : List (List UInt8)) (x : AuxInfo) (mem : Bytes) :
    StackOk r random path args envs x mem ↔ (args = [] → WithinLimits path [] envs →
        (strBytes path [path] envs + 15) / 16 * 16 + (envs.length + 45) / 2 * 16 ≤ 262144) := by
  have hnil : Fits path [] envs ↔
      (strBytes path [path] envs + 15) / 16 * 16 + (envs.length + 45) / 2 * 16 ≤ 262144 := by
    have : eagerSize = 262144 := rfl
    rw [Fits,argStrings_nil,this,length_nil]
    omega
  constructor
  · rintro h rfl hw
    obtain ⟨sp,p,hsome,-⟩ := h.laid hw
    rw [← hnil]
    by_contra hf
    rw [(setupStack_of_within hw).1,overflow_fillStack hf] at hsome
    cases hsome
  · intro h
    refine ⟨fun a ha => setupStack_frame ha,fun hw => ?_,setupStack_of_not_within⟩
    have hf : Fits path args envs := by
      by_cases hne : args = []
      · subst hne
        exact hnil.2 (h rfl hw)
      · exact fits_of_within hw hne
    obtain ⟨ho,hl⟩ := @laid_fillStack r random _ _ _ x mem hf
    obtain ⟨h₁,h₂⟩ := @setupStack_of_within r random _ _ _ x mem hw
    refine ⟨_,_,?_,h₂ ▸ hl⟩
    rw [h₁,ho]
    rfl

/-- Both callers give at least the path as an argument. -/
theorem setupStack_ok (r : EagerStack) (random : Vector UInt8 16) (path : List UInt8)
    (args envs : List (List UInt8)) (x : AuxInfo) (mem : Bytes) (hne : args ≠ []) :
    StackOk r random path args envs x mem :=
  (setupStack_iff r random path args envs x mem).2 fun h => absurd h hne

theorem setupStack_ok_one :
    StackOk (EagerStack.ofSlide 0 0 (Nat.zero_lt_succ _)) (Vector.replicate 16 0) [47,97] [[97]] []
      ⟨0,64,1,0,0,0⟩ zeroBytes :=
  setupStack_ok _ _ _ _ _ _ _ (by simp)

end Miku.Process
