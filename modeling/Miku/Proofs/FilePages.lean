import Miku.Vfs.FileOps

namespace Miku.Vfs
open Lib MikuVfs List Function

/-- Free pages are free once, and every page in use is dirty, so none is ever evicted. -/
structure CacheOk (c : PageCache) : Prop where
  nodup : c.slab.free.Nodup
  free : ∀ p ∈ c.slab.free, c.slab.active p = false
  dirty : ∀ p, c.slab.active p = true → (c.pages p).dirty = true
  lru : ∀ p ∈ c.lru, c.slab.active p = true
  once : c.lru.Nodup

section

variable {c c' : PageCache} {p : Nat} {f : Bytes → Bytes}

section

variable (h : CacheOk c)
include h

theorem CacheOk.pushFront (ha : c.slab.active p = true) : CacheOk (c.pushFront p) := by
  refine ⟨h.nodup,h.free,h.dirty,fun q hq => ?_,?_⟩
  · rcases mem_cons.mp hq with rfl | hq
    · exact ha
    · exact h.lru q (mem_of_mem_erase hq)
  · exact nodup_cons.mpr ⟨h.once.not_mem_erase,h.once.erase p⟩

theorem CacheOk.setDirty : CacheOk (c.setPage p ⟨d,true⟩) := by
  refine ⟨h.nodup,h.free,fun q hq => ?_,h.lru,h.once⟩
  by_cases hqp : q = p
  · subst hqp
    simp [PageCache.setPage]
  · simpa [PageCache.setPage,hqp] using h.dirty q hq

theorem CacheOk.update (ha : c.slab.active p = true) :
    ∃ c', c.update p f = some c' ∧ CacheOk c' ∧ c'.slab = c.slab ∧
      c'.pages = update c.pages p ⟨f (c.pages p).data,true⟩ :=
  ⟨_,if_pos ha,h.setDirty.pushFront ha,rfl,rfl⟩

theorem CacheOk.alloc_update {free : List Nat} (hf : c.slab.free = p :: free) :
    ∃ c₁ c₂, c.allocPage = some (p,c₁) ∧ c₁.update p f = some c₂ ∧ CacheOk c₂ ∧
      c₂.slab.free = free ∧ c₂.slab.active = Function.update c.slab.active p true ∧
      c₂.pages = Function.update c.pages p ⟨f zeroBytes,true⟩ := by
  have ha : c.slab.alloc = some (p,⟨free,Function.update c.slab.active p true⟩) := by
    unfold Slab.alloc
    rw [hf]
  have hpf : p ∉ free := (nodup_cons.mp (hf ▸ h.nodup)).1
  have hpl : p ∉ c.lru := fun hm => by
    have := h.lru p hm
    rw [h.free p (by rw [hf]; exact mem_cons_self)] at this
    cases this
  let slab : Slab := ⟨free,Function.update c.slab.active p true⟩
  refine ⟨{ c.setPage p .cleared with slab := slab }.pushFront p,
    (({ c.setPage p .cleared with slab := slab }.pushFront p).setPage p ⟨f zeroBytes,true⟩).pushFront p,
    by simp [PageCache.allocPage,ha,slab],?_,?_,rfl,rfl,?_⟩
  · unfold PageCache.update
    rw [if_pos (by simp [PageCache.pushFront,slab])]
    simp [PageCache.pushFront,PageCache.setPage,CachedPage.cleared]
  · have hok : CacheOk { c with
        pages := Function.update c.pages p ⟨f zeroBytes,true⟩
        slab := slab } := by
      refine ⟨(nodup_cons.mp (hf ▸ h.nodup)).2,fun q hq => ?_,fun q hq => ?_,fun q hq => ?_,h.once⟩
      · have hqp : q ≠ p := fun he => hpf (he ▸ hq)
        simpa [slab,hqp] using h.free q (by rw [hf]; exact mem_cons_of_mem _ hq)
      · by_cases hqp : q = p
        · simp [hqp]
        · simp only [slab,Function.update_of_ne hqp] at hq ⊢
          exact h.dirty q hq
      · have hqp : q ≠ p := fun he => hpl (he ▸ hq)
        simpa [slab,hqp] using h.lru q hq
    have hpush := (hok.pushFront (p := p) (by simp [slab])).pushFront (p := p) (by
      simp [slab,PageCache.pushFront])
    simpa [PageCache.pushFront,PageCache.setPage] using hpush
  · simp [PageCache.pushFront,PageCache.setPage]

theorem CacheOk.freePage : CacheOk (c.freePage p) := by
  unfold PageCache.freePage
  split
  · rename_i ha
    have hn : p ∉ c.slab.free := fun hm => by
      rw [h.free p hm] at ha
      cases ha
    unfold PageCache.drop Slab.release
    rw [if_pos ha]
    refine ⟨nodup_cons.mpr ⟨hn,h.nodup⟩,fun q hq => ?_,fun q hq => ?_,fun q hq => ?_,
      h.once.erase p⟩
    · rcases mem_cons.mp hq with rfl | hq
      · simp
      · have hqp : q ≠ p := fun he => hn (he ▸ hq)
        simpa [hqp] using h.free q hq
    · by_cases hqp : q = p
      · simp [hqp] at hq
      · simp only [PageCache.setPage,update_of_ne hqp] at hq ⊢
        exact h.dirty q hq
    · have hqp : q ≠ p := fun he => h.once.not_mem_erase (he ▸ hq)
      simpa [hqp] using h.lru q (mem_of_mem_erase hq)
  · exact h

end

theorem freePage_other (hq : q ≠ p) :
    (c.freePage p).pages q = c.pages q ∧ (c.freePage p).slab.active q = c.slab.active q := by
  unfold PageCache.freePage
  split
  · rename_i ha
    simp [PageCache.drop,Slab.release,PageCache.setPage,ha,hq]
  · exact ⟨rfl,rfl⟩

theorem CacheOk.freeAll {ps : List Nat} (h : CacheOk c) :
    CacheOk (ps.foldl PageCache.freePage c) ∧ ∀ q, q ∉ ps →
      (ps.foldl PageCache.freePage c).pages q = c.pages q ∧
      (ps.foldl PageCache.freePage c).slab.active q = c.slab.active q := by
  induction ps generalizing c with
  | nil => exact ⟨h,fun _ _ => ⟨rfl,rfl⟩⟩
  | cons a ps ih =>
    obtain ⟨hok,hrest⟩ := ih (h.freePage (p := a))
    refine ⟨hok,fun q hq => ?_⟩
    obtain ⟨hqa,hqs⟩ := not_or.mp (mt mem_cons.mpr hq)
    obtain ⟨hp,hs⟩ := hrest q hqs
    obtain ⟨hp',hs'⟩ := freePage_other (c := c) hqa
    exact ⟨hp.trans hp',hs.trans hs'⟩

end

/-- A byte as the pages have it, whatever the size is. -/
def rawByte (c : PageCache) (a : AddressSpace) (i : Nat) : UInt8 :=
  match a.getPage (i / pageSize) with
  | some p => (c.pages p).data (i % pageSize)
  | none => 0

def MikuVfs.raw (s : MikuVfs) (id : Nat) : Bytes := rawByte s.pageCache (s.nodes id).addrSpace

/-- Every page of a file is in use, by that file at that place only. -/
structure Owned (s : MikuVfs) : Prop where
  cache : CacheOk s.pageCache
  held : ∀ id k p, (s.nodes id).active = true → (s.nodes id).addrSpace.getPage k = some p →
    s.pageCache.slab.active p = true
  inj : ∀ id id' k k' p, (s.nodes id).active = true → (s.nodes id').active = true →
    (s.nodes id).addrSpace.getPage k = some p → (s.nodes id').addrSpace.getPage k' = some p →
    id = id' ∧ k = k'

variable {s t u : MikuVfs} {id k off : Nat} {bytes : List UInt8}

/-- Only the pages and who has them matter. -/
theorem Owned.fewer (h : Owned s) (hc : t.pageCache = s.pageCache)
    (hn : ∀ j k p, (t.nodes j).active = true → (t.nodes j).addrSpace.getPage k = some p →
      (s.nodes j).active = true ∧ (s.nodes j).addrSpace.getPage k = some p) : Owned t := by
  refine ⟨hc ▸ h.cache,fun j k p hj hp => ?_,fun j j' k k' p hj hj' hp hp' => ?_⟩
  · obtain ⟨ha,he⟩ := hn j k p hj hp
    rw [hc]
    exact h.held j k p ha he
  · obtain ⟨ha,he⟩ := hn j k p hj hp
    obtain ⟨ha',he'⟩ := hn j' k' p hj' hp'
    exact h.inj j j' k k' p ha ha' he he'

theorem Owned.congr (h : Owned s) (hc : t.pageCache = s.pageCache)
    (hn : ∀ j, (t.nodes j).active = true →
      (s.nodes j).active = true ∧ (t.nodes j).addrSpace = (s.nodes j).addrSpace) : Owned t :=
  h.fewer hc fun j _ _ hj hp => ⟨(hn j hj).1,(hn j hj).2 ▸ hp⟩

variable {c : PageCache} {a : AddressSpace} {i : Nat}

theorem rawByte_congr {c' : PageCache}
    (h : ∀ p, a.getPage (i / pageSize) = some p → c'.pages p = c.pages p) :
    rawByte c' a i = rawByte c a i := by
  unfold rawByte
  cases hp : a.getPage (i / pageSize) with
  | none => rfl
  | some p => simp only [h p hp]

variable {p : Nat}

theorem getPage_update (hk : k < directBlocks) :
    AddressSpace.getPage (update a k (some p)) k' =
      if k' = k then some p else a.getPage k' := by
  unfold AddressSpace.getPage
  by_cases h : k' = k
  · subst h
    simp [hk]
  · simp [h]

/-- The contents of one file are new; nothing else is. -/
structure Wrote (s t : MikuVfs) (id : Nat) (g : Bytes) : Prop where
  owned : Owned t
  raw : t.raw id = g
  other : ∀ j, j ≠ id → (s.nodes j).active = true → t.raw j = s.raw j
  node : t.nodes id = { s.nodes id with addrSpace := (t.nodes id).addrSpace }
  nodes : ∀ j, j ≠ id → t.nodes j = s.nodes j
  fds : t.fdTables = s.fdTables
  hint : t.vnodeFreeHint = s.vnodeFreeHint

theorem Wrote.trans (h : Wrote s t id g) (h' : Wrote t u id g') : Wrote s u id g' := by
  refine ⟨h'.owned,h'.raw,fun j hj ha => ?_,?_,fun j hj => (h'.nodes j hj).trans (h.nodes j hj),
    h'.fds.trans h.fds,h'.hint.trans h.hint⟩
  · rw [h'.other j hj (by rw [h.nodes j hj]; exact ha),h.other j hj ha]
  · rw [h'.node,h.node]

variable {r : Nat}

theorem page_div (hr : r < pageSize) : (k * pageSize + r) / pageSize = k := by
  rw [add_comm,Nat.add_mul_div_right _ _ (by decide),Nat.div_eq_of_lt hr,zero_add]

theorem page_mod (hr : r < pageSize) : (k * pageSize + r) % pageSize = r := by
  rw [add_comm,Nat.add_mul_mod_self_right,Nat.mod_eq_of_lt hr]

variable {b : Bytes}

theorem put_in_page (hfit : off % pageSize + bytes.length ≤ pageSize) :
    put b off bytes i = if i / pageSize = off / pageSize then
      put (fun r => b (off / pageSize * pageSize + r)) (off % pageSize) bytes
    (i % pageSize) else b i := by
  have hp : 0 < pageSize := by decide
  have hoff := Nat.div_add_mod' off pageSize
  have hi := Nat.div_add_mod' i pageSize
  split
  · rename_i he
    rw [he] at hi
    unfold put
    by_cases hle : off ≤ i
    · rw [if_pos hle,if_pos (by omega)]
      have : i - off = i % pageSize - off % pageSize := by omega
      simp [this,hi]
    · rw [if_neg hle,if_neg (by omega)]
      simp [hi]
  · rename_i hne
    refine put_other ?_
    rcases Nat.lt_or_gt_of_ne hne with hlt | hgt
    · left
      have : (i / pageSize + 1) * pageSize ≤ off / pageSize * pageSize := Nat.mul_le_mul_right _ hlt
      have := Nat.mod_lt i hp
      rw [add_mul] at *
      omega
    · right
      have : (off / pageSize + 1) * pageSize ≤ i / pageSize * pageSize := Nat.mul_le_mul_right _ hgt
      rw [add_mul] at *
      omega

theorem rewrite_spec {f : Bytes → Bytes} (ho : Owned s) (ha : (s.nodes id).active = true)
    (hp : (s.nodes id).addrSpace.getPage k = some p) :
    ∃ c, s.pageCache.update p f = some c ∧ Owned { s with pageCache := c } ∧
      (∀ i, MikuVfs.raw { s with pageCache := c } id i =
        if i / pageSize = k then f (s.pageCache.pages p).data (i % pageSize) else s.raw id i) ∧
      (∀ j, j ≠ id → (s.nodes j).active = true → MikuVfs.raw { s with pageCache := c } j = s.raw j) ∧
      c.slab = s.pageCache.slab := by
  obtain ⟨c,hu,hok,hslab,hpages⟩ := ho.cache.update (f := f) (ho.held id k p ha hp)
  have hsame : ∀ j k' q, (s.nodes j).active = true → (s.nodes j).addrSpace.getPage k' = some q →
      ¬ (j = id ∧ k' = k) → c.pages q = s.pageCache.pages q := by
    intro j k' q hj hq hne
    rw [hpages,update_of_ne]
    rintro rfl
    exact hne (ho.inj j id k' k q hj ha hq hp)
  refine ⟨c,hu,⟨hok,?_,ho.inj⟩,?_,?_,hslab⟩
  · intro j k' q hj hq
    show c.slab.active q = true
    rw [hslab]
    exact ho.held j k' q hj hq
  · intro i
    split
    · rename_i he
      unfold MikuVfs.raw rawByte
      rw [he,hp]
      simp [hpages]
    · rename_i hne
      exact rawByte_congr fun q hq => hsame id _ q ha hq fun h => hne h.2
  · intro j hj haj
    funext i
    exact rawByte_congr fun q hq => hsame j _ q haj hq fun h => hj h.1

theorem raw_put (hfit : off % pageSize + bytes.length ≤ pageSize)
    (hpage : a.getPage (off / pageSize) = some p)
    (hd : (c.pages p).data = put d (off % pageSize) bytes)
    (hb : ∀ r, r < pageSize → b (off / pageSize * pageSize + r) = d r)
    (hrest : ∀ i, i / pageSize ≠ off / pageSize → rawByte c a i = b i) :
    rawByte c a = put b off bytes := by
  funext i
  rw [put_in_page hfit]
  split
  · rename_i he
    unfold rawByte
    rw [he,hpage]
    simp only [hd,put]
    have hr := hb (i % pageSize) (Nat.mod_lt i (by decide))
    simp [hr]
  · rename_i hne
    exact hrest i hne

theorem writePage_spec (ho : Owned s) (ha : (s.nodes id).active = true)
    (hfit : off % pageSize + bytes.length ≤ pageSize) (hk : off / pageSize < directBlocks)
    (hroom : (s.nodes id).addrSpace.getPage (off / pageSize) = none → s.pageCache.slab.free ≠ []) :
    ∃ p s' t, ensurePage id (off / pageSize) s = .ok p s' ∧
      updatePage p (off % pageSize) bytes s' = .ok () t ∧ Wrote s t id (put (s.raw id) off bytes) ∧
      (∀ k, k ≠ off / pageSize → (t.nodes id).addrSpace.getPage k = (s.nodes id).addrSpace.getPage k) ∧
      s.pageCache.slab.free.length = t.pageCache.slab.free.length +
        if ((s.nodes id).addrSpace.getPage (off / pageSize)).isNone then 1 else 0 := by
  cases hp : (s.nodes id).addrSpace.getPage (off / pageSize) with
  | some p =>
    obtain ⟨c',hu,hown,hraw,hother,hslab⟩ :=
      rewrite_spec (f := fun d => put d (off % pageSize) bytes) ho ha hp
    have he : ensurePage id (off / pageSize) s = .ok p s := by simp [ensurePage,hp]
    have hup : updatePage p (off % pageSize) bytes s = .ok () { s with pageCache := c' } := by
      simp [updatePage,hu]
    refine ⟨p,s,{ s with pageCache := c' },he,hup,⟨hown,?_,hother,rfl,fun _ _ => rfl,rfl,rfl⟩,
      fun _ _ => rfl,by simp [hslab]⟩
    funext i
    rw [hraw,put_in_page hfit]
    split
    · rename_i hi
      have hsame : ∀ r, r < pageSize → s.raw id (off / pageSize * pageSize + r) =
          (s.pageCache.pages p).data r := by
        intro r hr
        unfold MikuVfs.raw rawByte
        rw [page_div hr,hp,page_mod hr]
      simp [put,hsame _ (Nat.mod_lt i (by decide))]
    · rfl
  | none =>
    obtain ⟨p,free,hf⟩ := exists_cons_of_ne_nil (hroom hp)
    obtain ⟨c₁,c₂,hal,hu,hok,hfree,hactive,hpages⟩ :=
      ho.cache.alloc_update (f := fun d => put d (off % pageSize) bytes) hf
    have hin : s.pageCache.slab.active p = false :=
      ho.cache.free p (by rw [hf]; exact mem_cons_self)
    -- no file has the new page yet
    have hfresh : ∀ j k q, (s.nodes j).active = true → (s.nodes j).addrSpace.getPage k = some q →
        q ≠ p := by
      rintro j k q hj hq rfl
      rw [ho.held j k q hj hq] at hin
      cases hin
    let n : VNode := { s.nodes id with
      addrSpace := update (s.nodes id).addrSpace (off / pageSize) (some p) }
    have he : ensurePage id (off / pageSize) s = .ok p ({ s with pageCache := c₁ }.setNode id n) := by
      simp [ensurePage,hp,hal,hk,mapNode,n]
    have hup : updatePage p (off % pageSize) bytes ({ s with pageCache := c₁ }.setNode id n) =
        .ok () ({ s with pageCache := c₂ }.setNode id n) := by
      simp [updatePage,setNode,hu]
    have hget : ∀ k, n.addrSpace.getPage k = if k = off / pageSize then some p else
        (s.nodes id).addrSpace.getPage k := fun k => getPage_update hk
    have hpages' : ∀ q, q ≠ p → c₂.pages q = s.pageCache.pages q := fun q hq => by
      rw [hpages,update_of_ne hq]
    have hnode : ∀ j, j ≠ id → ({ s with pageCache := c₂ }.setNode id n).nodes j = s.nodes j :=
      fun j hj => update_of_ne hj _ _
    have hself : ({ s with pageCache := c₂ }.setNode id n).nodes id = n := update_self _ _ _
    have hcases : ∀ j k q, (({ s with pageCache := c₂ }.setNode id n).nodes j).active = true →
        (({ s with pageCache := c₂ }.setNode id n).nodes j).addrSpace.getPage k = some q →
        (j = id ∧ k = off / pageSize ∧ q = p) ∨
        ((s.nodes j).active = true ∧ (s.nodes j).addrSpace.getPage k = some q ∧ q ≠ p) := by
      intro j k q hj hq
      by_cases hji : j = id
      · subst hji
        rw [hself,hget] at hq
        split at hq
        · exact .inl ⟨rfl,by assumption,(Option.some.inj hq).symm⟩
        · exact .inr ⟨ha,hq,hfresh j k q ha hq⟩
      · rw [hnode j hji] at hj hq
        exact .inr ⟨hj,hq,hfresh j k q hj hq⟩
    refine ⟨p,_,{ s with pageCache := c₂ }.setNode id n,he,hup,⟨⟨hok,?_,?_⟩,?_,?_,?_,hnode,rfl,rfl⟩,
      ?_,?_⟩
    · intro j k q hj hq
      show c₂.slab.active q = true
      rw [hactive]
      rcases hcases j k q hj hq with ⟨-,-,rfl⟩ | ⟨hj,hq,hne⟩
      · simp
      · rw [update_of_ne hne]
        exact ho.held j k q hj hq
    · intro j j' k k' q hj hj' hq hq'
      rcases hcases j k q hj hq with ⟨rfl,rfl,rfl⟩ | ⟨hj,hq,hne⟩
      · rcases hcases j' k' q hj' hq' with ⟨rfl,rfl,-⟩ | ⟨-,-,hne⟩
        · exact ⟨rfl,rfl⟩
        · exact absurd rfl hne
      · rcases hcases j' k' q hj' hq' with ⟨-,-,rfl⟩ | ⟨hj',hq',-⟩
        · exact absurd rfl hne
        · exact ho.inj j j' k k' q hj hj' hq hq'
    · have hraw : MikuVfs.raw ({ s with pageCache := c₂ }.setNode id n) id = rawByte c₂ n.addrSpace := by
        unfold MikuVfs.raw
        rw [hself]
        rfl
      rw [hraw]
      refine raw_put hfit (by rw [hget,if_pos rfl]) (d := zeroBytes) (by simp [hpages]) ?_ ?_
      · intro r hr
        unfold MikuVfs.raw rawByte
        rw [page_div hr,hp]
        rfl
      · intro i hi
        unfold MikuVfs.raw rawByte
        rw [hget,if_neg hi]
        cases hq : (s.nodes id).addrSpace.getPage (i / pageSize) with
        | none => rfl
        | some q => simp only [hpages' q (hfresh id _ q ha hq)]
    · intro j hj haj
      funext i
      unfold MikuVfs.raw
      rw [hnode j hj]
      exact rawByte_congr fun q hq => hpages' q (hfresh j _ q haj hq)
    · rw [hself]
    · intro k hk'
      rw [hself,hget,if_neg hk']
    · show s.pageCache.slab.free.length = c₂.slab.free.length + _
      simp [hf,hfree]

/-- The pages that a write of `n` bytes goes to. -/
def pagesTouched (off n : Nat) : List Nat :=
  List.range' (off / pageSize) ((off + n + (pageSize - 1)) / pageSize - off / pageSize)

/-- Those of them that the file does not have. -/
def missingPages (a : AddressSpace) (off n : Nat) : Nat :=
  (pagesTouched off n).countP fun k => (a.getPage k).isNone

variable {n : Nat}

theorem pagesTouched_cons (hn : 0 < n) (hc : chunk = min (pageSize - off % pageSize) n) :
    pagesTouched off n = off / pageSize :: if n = chunk then [] else pagesTouched (off + chunk)
    (n - chunk) := by
  unfold pageSize at hc
  unfold pagesTouched pageSize
  split
  · have : (off + n + (512 - 1)) / 512 - off / 512 = 0 + 1 := by omega
    rw [this,range'_succ]
    rfl
  · have h1 : (off + chunk) / 512 = off / 512 + 1 := by omega
    have h2 : off + chunk + (n - chunk) = off + n := by omega
    have h3 : (off + n + (512 - 1)) / 512 - off / 512 =
        ((off + n + (512 - 1)) / 512 - (off / 512 + 1)) + 1 := by omega
    rw [h1,h2,h3,range'_succ]

theorem missingPages_congr {a' : AddressSpace}
    (h : ∀ k, off / pageSize ≤ k → a'.getPage k = a.getPage k) :
    missingPages a' off n = missingPages a off n := by
  apply countP_congr
  intro k hk
  have := mem_range'_1.mp hk
  rw [h k this.1]

theorem writeLoop_spec {fuel : Nat} {data : List UInt8} (ho : Owned s)
    (ha : (s.nodes id).active = true) (hfuel : data.length ≤ fuel)
    (hmax : off + data.length ≤ AddressSpace.maxSize) (hroom : data ≠ [] →
      missingPages (s.nodes id).addrSpace off data.length ≤ s.pageCache.slab.free.length) :
    ∃ t, writeLoop id fuel off data s = .ok () t ∧ Wrote s t id (put (s.raw id) off data) := by
  induction fuel generalizing s off data with
  | zero =>
    have : data = [] := length_eq_zero_iff.mp (by omega)
    subst this
    exact ⟨s,rfl,ho,by funext i; simp [put],fun _ _ _ => rfl,rfl,fun _ _ => rfl,rfl,rfl⟩
  | succ fuel ih =>
    by_cases hd : data = []
    · subst hd
      exact ⟨s,rfl,ho,by funext i; simp [put],fun _ _ _ => rfl,rfl,fun _ _ => rfl,rfl,rfl⟩
    have hpos : 0 < data.length := length_pos_iff.mpr hd
    have hmod : off % pageSize < pageSize := Nat.mod_lt _ (by decide)
    have hpage : off / pageSize < directBlocks :=
      Nat.div_lt_of_lt_mul (by rw [mul_comm]; exact lt_of_lt_of_le (by omega) hmax)
    obtain ⟨chunk,hchunk⟩ : ∃ chunk, chunk = min (pageSize - off % pageSize) data.length := ⟨_,rfl⟩
    have hmiss := hroom hd
    unfold missingPages at hmiss
    rw [pagesTouched_cons hpos hchunk,countP_cons] at hmiss
    have htake : (data.take chunk).length = chunk := by
      rw [length_take]
      omega
    obtain ⟨p,s',u,he,hu,hw,hrest,hfree⟩ := @writePage_spec _ _ _ (data.take chunk) ho ha
      (by omega) hpage (fun hnone hnil => by
        rw [hnil] at hmiss
        simp [hnone] at hmiss)
    have hau : (u.nodes id).active = true := by
      rw [hw.node]
      exact ha
    obtain ⟨t,ht,hw'⟩ := @ih u (off + chunk) (data.drop chunk) hw.owned hau
      (by rw [length_drop]; omega) (by rw [length_drop]; omega) (by
        intro hne
        have hlt : ¬ data.length = chunk := fun h => hne (drop_eq_nil_of_le (by omega))
        rw [if_neg hlt] at hmiss
        rw [length_drop,missingPages_congr (a := (s.nodes id).addrSpace) (by
          intro k hk
          refine hrest k ?_
          have : (off + chunk) / pageSize = off / pageSize + 1 := by
            unfold pageSize at *
            omega
          omega)]
        unfold missingPages
        omega)
    refine ⟨t,?_,?_⟩
    · have hne : data.isEmpty = false := by simpa using hd
      simp only [writeLoop,hne,← hchunk]
      rw [if_neg (by decide),bind_of_ok he,bind_of_ok hu,ht]
    · have := hw.trans hw'
      rw [hw.raw] at this
      have hput : put (put (s.raw id) off (data.take chunk)) (off + chunk) (data.drop chunk) =
          put (s.raw id) off data := by
        have := @put_append (data.take chunk) (s.raw id) off (data.drop chunk)
        rw [htake,take_append_drop] at this
        exact this.symm
      rwa [hput] at this

theorem slice_add : slice b off (m + n) = slice b off m ++ slice b (off + m) n := by
  unfold slice
  rw [range_add,map_append,List.map_map]
  congr 1
  apply map_congr_left
  intro i _
  simp [add_assoc]

theorem slice_congr (h : ∀ i, i < n → b (off + i) = b' (off' + i)) :
    slice b off n = slice b' off' n :=
  map_congr_left fun i hi => h i (mem_range.mp hi)

section

variable {c : PageCache} {a : AddressSpace} {fuel left : Nat}

/-- Reading moves pages to the front of the list and changes nothing else. -/
structure Touched (c c' : PageCache) : Prop where
  ok : CacheOk c'
  pages : c'.pages = c.pages
  slab : c'.slab = c.slab

theorem readPage_spec {n : Nat} (hok : CacheOk c)
    (hheld : ∀ k p, a.getPage k = some p → c.slab.active p = true)
    (hfit : off % pageSize + n ≤ pageSize) :
    (readPage c (a.getPage (off / pageSize)) (off % pageSize) n).1 = slice (rawByte c a) off n ∧
      Touched c (readPage c (a.getPage (off / pageSize)) (off % pageSize) n).2 := by
  have hidx : ∀ i, i < n → (off + i) / pageSize = off / pageSize ∧ (off + i) % pageSize =
      off % pageSize + i := by
    intro i hi
    have hoff : off + i = off / pageSize * pageSize + (off % pageSize + i) := by
      rw [← add_assoc,Nat.div_add_mod']
    exact ⟨by rw [hoff,page_div (by omega)],by rw [hoff,page_mod (by omega)]⟩
  cases hp : a.getPage (off / pageSize) with
  | none =>
    refine ⟨?_,hok,rfl,rfl⟩
    show List.replicate n 0 = _
    refine ext_getElem (by simp [slice]) fun i hi _ => ?_
    have hlt : i < n := by simpa using hi
    simp only [getElem_replicate,slice,getElem_map,getElem_range,rawByte]
    rw [(hidx i hlt).1,hp]
  | some p =>
    have hact := hheld _ p hp
    have hget : c.getPageData p = some ((c.pages p).data,c.pushFront p) := if_pos hact
    simp only [readPage,Option.bind_some,hget]
    refine ⟨slice_congr fun i hi => ?_,hok.pushFront hact,rfl,rfl⟩
    unfold rawByte
    rw [(hidx i hi).1,(hidx i hi).2,hp]

theorem readLoop_spec (hok : CacheOk c)
    (hheld : ∀ k p, a.getPage k = some p → c.slab.active p = true) (hf : left ≤ fuel) :
    (readLoop a fuel c off left).1 = slice (rawByte c a) off left ∧
      Touched c (readLoop a fuel c off left).2 := by
  induction fuel generalizing c off left with
  | zero =>
    obtain rfl : left = 0 := by omega
    exact ⟨rfl,hok,rfl,rfl⟩
  | succ fuel ih =>
    unfold readLoop
    split
    · rename_i h0
      subst h0
      exact ⟨rfl,hok,rfl,rfl⟩
    have hmod : off % pageSize < pageSize := Nat.mod_lt _ (by decide)
    dsimp only
    obtain ⟨chunk,hchunk⟩ : ∃ chunk, chunk = min (pageSize - off % pageSize) left := ⟨_,rfl⟩
    rw [← hchunk]
    obtain ⟨hb,ht⟩ := @readPage_spec off _ _ chunk hok hheld (by omega)
    obtain ⟨hb',ht'⟩ := @ih (off + chunk) _ (left - chunk) ht.ok
      (fun k p hp => by rw [ht.slab]; exact hheld k p hp) (by omega)
    refine ⟨?_,ht'.ok,ht'.pages.trans ht.pages,ht'.slab.trans ht.slab⟩
    have hsum : left = chunk + (left - chunk) := by omega
    have hraw : rawByte (readPage c (a.getPage (off / pageSize)) (off % pageSize) chunk).2 a =
        rawByte c a := by
      funext i
      exact rawByte_congr fun p _ => by rw [ht.pages]
    rw [hb,hb',hraw,← slice_add,← hsum]

end

theorem free_spec {n : VNode} {keep : Nat} (ho : Owned s) (ha : (s.nodes id).active = true)
    (hn : ∀ k, n.addrSpace.getPage k = if k < keep then (s.nodes id).addrSpace.getPage k else none) :
    let t := { s with
      pageCache := ((s.nodes id).addrSpace.pagesFrom keep).foldl PageCache.freePage s.pageCache }.setNode
        id n
    Owned t ∧ (∀ i, t.raw id i = if i / pageSize < keep then s.raw id i else 0) ∧
      ∀ j, j ≠ id → (s.nodes j).active = true → t.raw j = s.raw j := by
  intro t
  obtain ⟨hok,hkeep⟩ := @CacheOk.freeAll _ ((s.nodes id).addrSpace.pagesFrom keep) ho.cache
  have hself : t.nodes id = n := update_self _ _ _
  have hnode : ∀ j, j ≠ id → t.nodes j = s.nodes j := fun j hj => update_of_ne hj _ _
  -- what is freed is a page of this file, from `keep` on
  have hmem : ∀ q, q ∈ (s.nodes id).addrSpace.pagesFrom keep →
      ∃ k, keep ≤ k ∧ (s.nodes id).addrSpace.getPage k = some q := by
    intro q hq
    obtain ⟨k,hk,hkq⟩ := mem_filterMap.mp hq
    have := mem_range'_1.mp hk
    refine ⟨k,this.1,?_⟩
    unfold AddressSpace.getPage
    rw [if_pos (by omega),hkq]
  have hstay : ∀ j k q, (s.nodes j).active = true → (s.nodes j).addrSpace.getPage k = some q →
      ¬ (j = id ∧ keep ≤ k) → q ∉ (s.nodes id).addrSpace.pagesFrom keep := by
    intro j k q hj hq hne hm
    obtain ⟨k',hk',hq'⟩ := hmem q hm
    obtain ⟨rfl,rfl⟩ := ho.inj j id k k' q hj ha hq hq'
    exact hne ⟨rfl,hk'⟩
  have hold : ∀ j k q, (t.nodes j).active = true → (t.nodes j).addrSpace.getPage k = some q →
      (s.nodes j).active = true ∧ (s.nodes j).addrSpace.getPage k = some q ∧ ¬ (j = id ∧ keep ≤ k) := by
    intro j k q hj hq
    by_cases hji : j = id
    · subst hji
      rw [hself,hn] at hq
      split at hq
      · exact ⟨ha,hq,fun h => by omega⟩
      · cases hq
    · rw [hnode j hji] at hj hq
      exact ⟨hj,hq,fun h => hji h.1⟩
  refine ⟨⟨hok,?_,?_⟩,?_,?_⟩
  · intro j k q hj hq
    obtain ⟨hj,hq,hne⟩ := hold j k q hj hq
    exact (hkeep q (hstay j k q hj hq hne)).2.trans (ho.held j k q hj hq)
  · intro j j' k k' q hj hj' hq hq'
    obtain ⟨hj,hq,-⟩ := hold j k q hj hq
    obtain ⟨hj',hq',-⟩ := hold j' k' q hj' hq'
    exact ho.inj j j' k k' q hj hj' hq hq'
  · intro i
    unfold MikuVfs.raw rawByte
    rw [hself,hn]
    by_cases hlt : i / pageSize < keep
    · rw [if_pos hlt,if_pos hlt]
      cases hq : (s.nodes id).addrSpace.getPage (i / pageSize) with
      | none => rfl
      | some q =>
        have := (hkeep q (hstay id _ q ha hq fun h => by omega)).1
        exact congrArg (fun p : CachedPage => p.data (i % pageSize)) this
    · rw [if_neg hlt,if_neg hlt]
  · intro j hj haj
    funext i
    unfold MikuVfs.raw
    rw [hnode j hj]
    exact rawByte_congr fun q hq => (hkeep q (hstay j _ q haj hq fun h => hj h.1)).1

theorem zeroTail_spec (ho : Owned s) (ha : (s.nodes id).active = true) :
    let t := { s with pageCache := zeroTail s.pageCache (s.nodes id).addrSpace n }
    Owned t ∧ (∀ i, t.raw id i =
      if 0 < n % pageSize ∧ i / pageSize = (n - 1) / pageSize ∧ n % pageSize ≤ i % pageSize then 0
      else s.raw id i) ∧ ∀ j, j ≠ id → (s.nodes j).active = true → t.raw j = s.raw j := by
  intro t
  by_cases hpos : 0 < n % pageSize
  · cases hp : (s.nodes id).addrSpace.getPage ((n - 1) / pageSize) with
    | none =>
      have ht : t = s := by simp [t,zeroTail,hpos,hp]
      rw [ht]
      refine ⟨ho,fun i => ?_,fun _ _ _ => rfl⟩
      split
      · rename_i h
        unfold MikuVfs.raw rawByte
        rw [h.2.1,hp]
      · rfl
    | some p =>
      obtain ⟨c,hu,hown,hraw,hother,-⟩ := rewrite_spec (k := (n - 1) / pageSize) (p := p)
        (f := fun d i => if n % pageSize ≤ i ∧ i < pageSize then 0 else d i) ho ha hp
      have ht : t = { s with pageCache := c } := by
        simp [t,zeroTail,hpos,hp,hu]
      rw [ht]
      refine ⟨hown,fun i => ?_,hother⟩
      have hlt : i % pageSize < pageSize := Nat.mod_lt i (by decide)
      rw [hraw]
      by_cases he : i / pageSize = (n - 1) / pageSize
      · rw [if_pos he]
        by_cases hle : n % pageSize ≤ i % pageSize
        · rw [if_pos ⟨hle,hlt⟩,if_pos ⟨hpos,he,hle⟩]
        · rw [if_neg fun h => hle h.1,if_neg fun h => hle h.2.2]
          unfold MikuVfs.raw rawByte
          rw [he,hp]
      · rw [if_neg he,if_neg fun h => he h.2.1]
  · have ht : t = s := by simp [t,zeroTail,hpos]
    rw [ht]
    exact ⟨ho,fun i => by rw [if_neg fun h => hpos h.1],fun _ _ _ => rfl⟩

end Miku.Vfs
