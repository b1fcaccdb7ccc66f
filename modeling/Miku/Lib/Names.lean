import Miku.Lib.Holders

namespace Miku.Lib
open Function Option

/-- Nodes and the names they have in directories. `home` is where a directory is. -/
structure Names (ι ν : Type) where
  entries : ι × ν → Option ι
  live : ι → Bool
  dir : ι → Bool
  nlinks : ι → Nat
  home : ι → ι × ν

namespace Names

variable {ι ν : Type} {N N' : Names ι ν} {root id : ι} {e : ι × ν}

/-- What the `..` of the directory at an entry refers to. -/
def ups (N : Names ι ν) (e : ι × ν) : Option ι :=
  (N.entries e).bind fun c => if N.dir c then some e.1 else none

/-- A directory without entries has `.`, the root its own `..` too. -/
def own [DecidableEq ι] (root id : ι) (dir : Bool) : Nat :=
  if dir then if id = root then 2 else 1 else 0

/-- The entries that refer to a node, `.` and `..` among them. -/
noncomputable def references [DecidableEq ι] (N : Names ι ν) (root id : ι) : ℕ∞ :=
  (holders N.entries id).encard + (holders N.ups id).encard + own root id (N.dir id)

/-- Entries are in directories and refer to nodes in use, and a directory has one place. -/
structure Shape (N : Names ι ν) : Prop where
  live : ∀ e c, N.entries e = some c → N.live c
  holder : ∀ e c, N.entries e = some c → N.live e.1 ∧ N.dir e.1
  home : ∀ e c, N.entries e = some c → N.dir c → N.home c = e

/-- Every link to a node of `C` is counted. -/
structure Tree [DecidableEq ι] (C : ι → Prop) (root : ι) (N : Names ι ν) : Prop extends Shape N where
  counted : ∀ id, C id → N.live id → (N.nlinks id : ℕ∞) = N.references root id

/-- The same names and counts, as far as nodes in use go. -/
structure Same (C : ι → Prop) (N N' : Names ι ν) : Prop where
  entries : N'.entries = N.entries
  live : N'.live = N.live
  dir : ∀ id, N.live id → N'.dir id = N.dir id
  nlinks : ∀ id, C id → N.live id → N'.nlinks id = N.nlinks id
  home : ∀ id, N.live id → N.dir id → N'.home id = N.home id

variable {C : ι → Prop}

theorem Same.ups (hs : Same C N N') (h : N.Shape) : N'.ups = N.ups := by
  funext e
  rw [Names.ups,Names.ups,hs.entries]
  cases hc : N.entries e with
  | none => rfl
  | some c => simp only [bind_some,hs.dir c (h.live e c hc)]

variable [DecidableEq ι]

theorem Tree.congr (h : N.Tree C root) (hs : Same C N N') : N'.Tree C root where
  live e c he := by
    rw [hs.entries] at he
    rw [hs.live]
    exact h.live e c he
  holder e c he := by
    rw [hs.entries] at he
    obtain ⟨hl,hd⟩ := h.holder e c he
    rw [hs.live,hs.dir e.1 hl]
    exact ⟨hl,hd⟩
  home e c he hd := by
    rw [hs.entries] at he
    have hl := h.live e c he
    rw [hs.dir c hl] at hd
    rw [hs.home c hl hd]
    exact h.home e c he hd
  counted id hC hl := by
    rw [hs.live] at hl
    rw [hs.nlinks id hC hl,h.counted id hC hl,references,references,hs.entries,hs.ups h.toShape,
      hs.dir id hl]

def birth (N : Names ι ν) (root id : ι) (dir : Bool) : Names ι ν :=
  { N with
    live := update N.live id true
    dir := update N.dir id dir
    nlinks := update N.nlinks id (own root id dir) }

theorem Tree.birth (h : N.Tree C root) (hid : N.live id = false) (dir : Bool) :
    (N.birth root id dir).Tree C root := by
  have hne : ∀ x, N.live x → x ≠ id := by
    rintro x hx rfl
    rw [hid] at hx
    cases hx
  have hdir : ∀ x, N.live x → (N.birth root id dir).dir x = N.dir x := fun x hx =>
    update_of_ne (hne x hx) _ _
  have hups : (N.birth root id dir).ups = N.ups := by
    funext e
    rw [Names.ups,Names.ups]
    cases hc : N.entries e with
    | none => simp [Names.birth,hc]
    | some c =>
      have : (N.birth root id dir).entries e = some c := hc
      simp [this,hdir c (h.live e c hc)]
  have hlive : ∀ x, N.live x → (N.birth root id dir).live x := by
    intro x hx
    rw [Names.birth]
    dsimp only
    rwa [update_of_ne (hne x hx)]
  refine ⟨⟨fun e c he => hlive c (h.live e c he),fun e c he => ?_,fun e c he hd => ?_⟩,
    fun x hC hx => ?_⟩
  · obtain ⟨hl,hd⟩ := h.holder e c he
    exact ⟨hlive e.1 hl,(hdir e.1 hl).trans hd⟩
  · rw [hdir c (h.live e c he)] at hd
    exact h.home e c he hd
  · rw [references,hups]
    by_cases hxi : x = id
    · -- nothing refers to it yet, and it holds nothing
      subst hxi
      have h1 : holders N.entries x = ∅ := by
        ext e
        simp only [holders,Set.mem_ofPred_eq,Set.mem_empty_iff_false,iff_false]
        exact fun he => hne x (h.live e x he) rfl
      have h2 : holders N.ups x = ∅ := by
        ext e
        simp only [holders,Set.mem_ofPred_eq,Set.mem_empty_iff_false,iff_false]
        intro he
        obtain ⟨c,hc,hu⟩ := bind_eq_some_iff.mp he
        split at hu
        · cases hu
          exact hne _ (h.holder e c hc).1 rfl
        · cases hu
      simp [Names.birth,h1,h2]
    · have hl : N.live x := by
        rw [Names.birth] at hx
        dsimp only at hx
        rwa [update_of_ne hxi] at hx
      have hn : (N.birth root id dir).nlinks x = N.nlinks x := update_of_ne hxi _ _
      rw [hdir x hl,hn]
      exact h.counted x hC hl

def death (N : Names ι ν) (id : ι) : Names ι ν := { N with live := update N.live id false }

/-- A node that nothing refers to and that holds nothing. -/
theorem Tree.death (h : N.Tree C root) (hr : ∀ e, N.entries e ≠ some id)
    (hh : ∀ e, e.1 = id → N.entries e = none) : (N.death id).Tree C root := by
  have hlive : ∀ x, x ≠ id → (N.death id).live x = N.live x := fun x hx =>
    update_of_ne hx _ _
  refine ⟨⟨fun e c he => ?_,fun e c he => ?_,h.home⟩,fun x hC hx => ?_⟩
  · have hc : c ≠ id := by
      rintro rfl
      exact hr e he
    rw [hlive c hc]
    exact h.live e c he
  · have he1 : e.1 ≠ id := by
      intro h1
      have := (hh e h1).symm.trans he
      cases this
    rw [hlive e.1 he1]
    exact h.holder e c he
  · have hxi : x ≠ id := by
      rintro rfl
      simp [Names.death] at hx
    rw [hlive x hxi] at hx
    exact h.counted x hC hx

variable [DecidableEq ν]

def enter (N : Names ι ν) (e : ι × ν) (id : ι) : Names ι ν :=
  { N with
    entries := update N.entries e (some id)
    nlinks := fun x => N.nlinks x + ((if id = x then 1 else 0) + if N.dir id ∧ e.1 = x then 1 else 0)
    home := update N.home id e }

def leave (N : Names ι ν) (e : ι × ν) (id : ι) : Names ι ν :=
  { N with
    entries := update N.entries e none
    nlinks := fun x => N.nlinks x - ((if id = x then 1 else 0) + if N.dir id ∧ e.1 = x then 1 else 0) }

/-- An entry more: one reference to its node, and one to its directory if that is one. -/
theorem references_fill (hb : N.entries e = none) (ha : N'.entries e = some id)
    (ho : ∀ f, f ≠ e → N'.entries f = N.entries f) (hd : N'.dir = N.dir) (x : ι) :
    N'.references root x = N.references root x +
      (((if id = x then 1 else 0) + if N.dir id ∧ e.1 = x then 1 else 0 : Nat) : ℕ∞) := by
  have hother : ∀ f, f ≠ e → N'.ups f = N.ups f := by
    intro f hf
    rw [Names.ups,Names.ups,ho f hf,hd]
  have hbefore : N.ups e = none := by rw [Names.ups,hb]; rfl
  have h2 : (holders N'.ups x).encard =
      (holders N.ups x).encard + ((if N.dir id ∧ e.1 = x then 1 else 0 : Nat) : ℕ∞) := by
    by_cases hdid : N.dir id
    · have hafter : N'.ups e = some e.1 := by
        rw [Names.ups,ha,bind_some,hd,if_pos hdid]
      rw [encard_holders_fill hbefore hafter hother]
      simp [hdid]
    · have hafter : N'.ups e = none := by
        rw [Names.ups,ha,bind_some,hd,if_neg hdid]
      have : N'.ups = N.ups := by
        funext f
        by_cases hf : f = e
        · rw [hf,hafter,hbefore]
        · exact hother f hf
      simp [this,hdid]
  rw [references,references,encard_holders_fill hb ha ho,h2,hd]
  push_cast
  simp [add_assoc,add_comm,add_left_comm]

section

variable (h : N.Tree C root)
include h

theorem Tree.enter (he : N.entries e = none) (hid : N.live id)
    (hl : N.live e.1) (hd : N.dir e.1) (honly : N.dir id → ∀ f, N.entries f ≠ some id) :
    (N.enter e id).Tree C root := by
  have hcases : ∀ f c, (N.enter e id).entries f = some c →
      f = e ∧ c = id ∨ f ≠ e ∧ N.entries f = some c := by
    intro f c hf
    rw [Names.enter] at hf
    dsimp only at hf
    by_cases hfe : f = e
    · rw [hfe,update_self] at hf
      exact .inl ⟨hfe,(some.inj hf).symm⟩
    · rw [update_of_ne hfe] at hf
      exact .inr ⟨hfe,hf⟩
  refine ⟨⟨fun f c hf => ?_,fun f c hf => ?_,fun f c hf hdc => ?_⟩,fun x hC hx => ?_⟩
  · rcases hcases f c hf with ⟨-,rfl⟩ | ⟨-,hf⟩
    · exact hid
    · exact h.live f c hf
  · rcases hcases f c hf with ⟨rfl,-⟩ | ⟨-,hf⟩
    · exact ⟨hl,hd⟩
    · exact h.holder f c hf
  · rcases hcases f c hf with ⟨rfl,rfl⟩ | ⟨-,hf⟩
    · exact update_self _ _ _
    · have hc : c ≠ id := fun hc => honly (hc ▸ hdc) f (hc ▸ hf)
      rw [Names.enter]
      dsimp only
      rw [update_of_ne hc]
      exact h.home f c hf hdc
  · rw [@references_fill _ _ _ (N.enter e id) _ _ _ _ _ he (update_self e _ _)
      (fun f hf => update_of_ne hf _ _) rfl x,← h.counted x hC hx]
    rw [Names.enter]
    dsimp only
    exact Nat.cast_add _ _

theorem Tree.links_eq (he : N.entries e = some id) (hC : C x) (hx : N.live x) :
    (N.nlinks x : ℕ∞) = (N.leave e id).references root x +
      (((if id = x then 1 else 0) + if N.dir id ∧ e.1 = x then 1 else 0 : Nat) : ℕ∞) := by
  rw [h.counted x hC hx]
  exact @references_fill _ _ (N.leave e id) N root _ _ _ _ (update_self e _ _) he
    (fun f hf => (update_of_ne hf _ _).symm) rfl x

theorem Tree.links_le (he : N.entries e = some id) (hC : C x) (hx : N.live x) :
    (if id = x then 1 else 0) + (if N.dir id ∧ e.1 = x then 1 else 0) ≤ N.nlinks x := by
  have hle := (h.links_eq he hC hx).symm ▸ le_add_self
  exact Nat.cast_le.mp hle

theorem Tree.leave (he : N.entries e = some id) : (N.leave e id).Tree C root := by
  have hold : ∀ f c, (N.leave e id).entries f = some c → N.entries f = some c := by
    intro f c hf
    rw [Names.leave] at hf
    dsimp only at hf
    by_cases hfe : f = e
    · rw [hfe,update_self] at hf
      cases hf
    · rwa [update_of_ne hfe] at hf
  refine ⟨⟨fun f c hf => h.live f c (hold f c hf),fun f c hf => h.holder f c (hold f c hf),
    fun f c hf => h.home f c (hold f c hf)⟩,fun x hC hx => ?_⟩
  exact (eq_sub_of_cast_eq_add (h.links_eq he hC hx)).symm

theorem Tree.unnamed (hC : C id) (hl : N.live id) (hz : N.nlinks id = 0) : N.entries e ≠ some id := by
  intro he
  have hle := h.links_le he hC hl
  rw [hz,if_pos rfl] at hle
  omega

end

omit [DecidableEq ν] in
/-- A directory has one name, and a `..` from each node in it. -/
theorem Tree.nlinks_le (h : N.Tree C root) (hC : C id) (hl : N.live id) (hd : N.dir id) {S : Set ι}
    (hS : ∀ x, N.live x → x ∈ S) : (N.nlinks id : ℕ∞) ≤ 1 + S.encard + 2 := by
  have hnames : (holders N.entries id).encard ≤ 1 := by
    refine Set.encard_le_one_iff.mpr fun e f he hf => ?_
    rw [← h.home e id he hd,h.home f id hf hd]
  have hups : (holders N.ups id).encard ≤ S.encard := by
    have hchild : ∀ e ∈ holders N.ups id, ∃ c, N.entries e = some c ∧ N.dir c := by
      intro e he
      obtain ⟨c,hc,hu⟩ := bind_eq_some_iff.mp he
      split at hu
      · rename_i hdc
        exact ⟨c,hc,hdc⟩
      · cases hu
    refine @Set.encard_le_encard_of_injOn _ _ _ _ (fun e => (N.entries e).getD id) (fun e he => ?_)
      fun e he f hf hef => ?_
    · obtain ⟨c,hc,-⟩ := hchild e he
      dsimp only
      rw [hc]
      exact hS c (h.live e c hc)
    · obtain ⟨c,hc,hdc⟩ := hchild e he
      obtain ⟨c',hc',-⟩ := hchild f hf
      dsimp only at hef
      rw [hc,hc'] at hef
      cases hef
      rw [← h.home e c hc hdc,h.home f c hc' hdc]
  have hown : own root id (N.dir id) ≤ 2 := by
    unfold own
    split_ifs <;> omega
  rw [h.counted id hC hl,references]
  exact add_le_add (add_le_add hnames hups) (by exact_mod_cast hown)

end Names

end Miku.Lib
