import Miku.Mm.Pmm
import Miku.Mm.SwapMap

namespace Miku.Mm

abbrev Page := Fin 4096 → UInt8

def zeroPage : Page := fun _ => 0

/-- Physical memory, who owns it and where it is mapped. `mem` is indexed by
frame address, `disk` by the first sector of a swap page, and `io` holds the
outcomes of the swap transfers to come (no entry means success). -/
structure Memory where
  pmm : FrameAllocator
  refcounts : RefCounts
  pool : EmergencyPool
  swapMap : SwapMap
  swap : SwapState
  mem : Nat → Page
  disk : Nat → Page
  io : List Bool
  spaces : List P4

namespace Memory

def allocFrame (s : Memory) : Option (Nat × Memory) :=
  s.pmm.allocFrame.map fun (phys,pmm) => (phys,{ s with pmm := pmm })

def freeFrame (s : Memory) (phys : Nat) : Memory := { s with pmm := s.pmm.freeFrame phys }

def fillFrame (s : Memory) (phys : Nat) (page : Page) : Memory :=
  { s with mem := Function.update s.mem phys page }

def space (s : Memory) (cr3 : Nat) : Option P4 := s.spaces.find? (fun p => p.frame == cr3)

def replaceSpace (p4 : P4) : List P4 → List P4
  | [] => []
  | p :: ps => if p.frame == p4.frame then p4 :: ps else p :: replaceSpace p4 ps

/-- Store a changed tree back under its `cr3`. -/
def setSpace (s : Memory) (p4 : P4) : Memory := { s with spaces := replaceSpace p4 s.spaces }

def readPteRaw (s : Memory) (cr3 virt : Nat) : Option Pte :=
  (s.space cr3).bind (fun p4 => p4.readPteRaw virt)

def writePteRaw (s : Memory) (cr3 virt : Nat) (pte : Pte) : Memory :=
  match s.space cr3 with
  | none => s
  | some p4 => s.setSpace (p4.writePteRaw virt pte)

def virtToPhys (s : Memory) (cr3 virt : Nat) : Option Nat :=
  match s.readPteRaw cr3 virt with
  | none => none
  | some raw => if raw.present then some (raw.addr + virt % 4096) else none

/-- `swap_map::track`: the flags saved for swap-in are read back from the table. -/
def track (s : Memory) (phys cr3 virt : Nat) (pinned : Bool) : Memory :=
  { s with swapMap := s.swapMap.track phys cr3 virt pinned ((s.readPteRaw cr3 virt).getD 0#64) }

def untrack (s : Memory) (phys : Nat) : Memory := { s with swapMap := s.swapMap.untrack phys }

def setPinned (s : Memory) (phys : Nat) (pinned : Bool) : Memory :=
  { s with swapMap := s.swapMap.setPinned phys pinned }

def newUser (s : Memory) : Option (Nat × Memory) :=
  s.allocFrame.map fun (cr3,s) =>
    let s := s.fillFrame cr3 zeroPage
    (cr3,{ s with spaces := s.spaces ++ [Dir.empty P3 cr3] })

/-- The next table on the way down, created empty when the entry is absent. -/
def getOrCreate (s : Memory) (mk : Nat → α) : Option (Pte × α) → Option ((Pte × α) × Memory)
  | some link => some (link,s)
  | none => s.allocFrame.map fun (frame,s) =>
    ((ptePresent ||| pteWritable ||| pteUser,mk frame),s.fillFrame frame zeroPage)

/-- The table walk of `map_page`. Tables created before an allocation fails
stay linked. -/
def mapIn (s : Memory) (p4 : P4) (virt : Nat) (pte : Pte) : Bool × P4 × Memory :=
  let i3 := ptIndex virt 3
  let i2 := ptIndex virt 2
  let i1 := ptIndex virt 1
  match s.getOrCreate (Dir.empty P2) (p4.entries i3) with
  | none => (false,p4,s)
  | some ((f3,p3),s) => match s.getOrCreate (Dir.empty P1) (p3.entries i2) with
    | none => (false,p4.set i3 (f3,p3),s)
    | some ((f2,p2),s) => match s.getOrCreate P1.empty (p2.entries i1) with
      | none => (false,p4.set i3 (f3,p3.set i2 (f2,p2)),s)
      | some ((f1,p1),s) =>
        (true,p4.set i3 (f3,p3.set i2 (f2,p2.set i1 (f1,p1.set (ptIndex virt 0) pte))),s)

def mapPage (s : Memory) (cr3 virt phys : Nat) (flags : Pte) : Bool × Memory :=
  match s.space cr3 with
  | none => (false,s)
  | some p4 =>
    let (ok,p4,s) := s.mapIn p4 virt (Pte.setAddr phys (flags ||| ptePresent))
    let s := s.setSpace p4
    if ok then
      (true,s.track phys cr3 virt
        (decide (virt ≥ 0xFFFF800000000000) || decide (phys < 0x400000)))
    else (false,s)

/-- Frees the frame of a present page without looking at its share count. -/
def unmapPage (s : Memory) (cr3 virt : Nat) : Memory :=
  match s.readPteRaw cr3 virt with
  | none => s
  | some pte =>
    let s := if isSwapPte pte then { s with swap := s.swap.freeSlot (slotFromPte pte) }
      else if pte.present then (s.untrack pte.addr).freeFrame pte.addr
      else s
    s.writePteRaw cr3 virt 0#64

def unmapPageNoFree (s : Memory) (cr3 virt : Nat) : Memory :=
  match s.readPteRaw cr3 virt with
  | none => s
  | some pte =>
    if pte.present then (s.untrack pte.addr).writePteRaw cr3 virt 0#64 else s

def freeFrameCowSwap (s : Memory) (phys : Nat) : Memory :=
  match dropRef s.refcounts phys with
  | (.free,rc) =>
    { s with
      refcounts := rc
      swapMap := s.swapMap.untrack phys
      pmm := s.pmm.freeFrameBatched phys }
  | (.nowUnique,rc) => { s with refcounts := rc, swapMap := s.swapMap.setPinned phys false }
  | (.stillShared,rc) => { s with refcounts := rc }

def freeTable (s : Memory) (frame : Nat) : Memory := { s with pmm := s.pmm.freeFrameBatched frame }

def freePte (s : Memory) (pte : Pte) : Memory :=
  if isSwapPte pte then { s with swap := s.swap.freeSlot (slotFromPte pte) }
  else if pte.present then s.freeFrameCowSwap pte.addr
  else s

/-- Release what a last-level table maps, then the table itself. -/
def freeP1 (s : Memory) (p1 : P1) : Memory :=
  ((List.range tableSlots).foldl (fun s m => s.freePte (p1.ptes m)) s).freeTable p1.frame

/-- Release every table a directory links to, then the directory itself. -/
def freeDir (slots : Nat) (sub : Memory → α → Memory) (s : Memory) (d : Dir α) : Memory :=
  ((List.range slots).foldl (fun s i => match d.entries i with
    | none => s
    | some (_,t) => sub s t) s).freeTable d.frame

def freeP2 : Memory → P2 → Memory := freeDir tableSlots freeP1
def freeP3 : Memory → P3 → Memory := freeDir tableSlots freeP2
def freeP4 : Memory → P4 → Memory := freeDir userSlots freeP3

def freeAddressSpace (s : Memory) (cr3 : Nat) : Memory :=
  match s.space cr3 with
  | none => s
  | some p4 =>
    let s := s.freeP4 p4
    { s with spaces := s.spaces.eraseP (fun p => p.frame == cr3) }

def cloneP1 (s : Memory) (src dst : P1) : List Nat → P1 × P1 × Memory
  | [] => (src,dst,s)
  | m :: ms =>
    let pte := src.ptes m
    if !pte.present then cloneP1 s src dst ms
    else if isSwapPte pte then cloneP1 s src dst ms
    else
      let s := { s with refcounts := s.refcounts.refInc pte.addr }
      cloneP1 (s.setPinned pte.addr true) (src.set m pte.toCow) (dst.set m pte.toCow) ms

/-- One level of the clone walk: source and destination tables, and whether
every table frame could be allocated. -/
def cloneDir (mk : Nat → α) (sub : Memory → α → α → Bool × α × α × Memory)
    (s : Memory) (src dst : Dir α) : List Nat → Bool × Dir α × Dir α × Memory
  | [] => (true,src,dst,s)
  | i :: is => match src.entries i with
    | none => cloneDir mk sub s src dst is
    | some (flags,t) => match s.allocFrame with
      | none => (false,src,dst,s)
      | some (frame,s) =>
        let (ok,t,d,s) := sub (s.fillFrame frame zeroPage) t (mk frame)
        let src := src.set i (flags,t)
        let dst := dst.set i (flags,d)
        if ok then cloneDir mk sub s src dst is else (false,src,dst,s)

/-- A last-level table needs no further frame, so copying it cannot fail. -/
def cloneLast (s : Memory) (src dst : P1) : Bool × P1 × P1 × Memory :=
  let (src,dst,s) := cloneP1 s src dst (List.range tableSlots)
  (true,src,dst,s)

def cloneP2 (s : Memory) (src dst : P2) : Bool × P2 × P2 × Memory :=
  cloneDir P1.empty cloneLast s src dst (List.range tableSlots)

def cloneP3 (s : Memory) (src dst : P3) : Bool × P3 × P3 × Memory :=
  cloneDir (Dir.empty P1) cloneP2 s src dst (List.range tableSlots)

/-- `clone_cow_inner` over the user half. -/
def cloneP4 (s : Memory) (src dst : P4) : Bool × P4 × P4 × Memory :=
  cloneDir (Dir.empty P2) cloneP3 s src dst (List.range userSlots)

/-- Fork. A partial clone is torn down, but the parent stays marked. -/
def cloneCow (s : Memory) (cr3 : Nat) : Option Nat × Memory :=
  match s.space cr3 with
  | none => (none,s)
  | some src => match s.allocFrame with
    | none => (none,s)
    | some (newCr3,s) =>
      let (ok,src,dst,s) := (s.fillFrame newCr3 zeroPage).cloneP4 src (Dir.empty P3 newCr3)
      let s := s.setSpace src
      if ok then (some newCr3,{ s with spaces := s.spaces ++ [dst] })
      else (none,s.freeP4 dst)

/-- The body shared by the page-fault handler and `break_cow_page`: copy while
the frame has other owners, otherwise take it over. -/
def copyOrUnshare (s : Memory) (cr3 page : Nat) (pte : Pte) : Bool × Memory :=
  let old := pte.addr
  if s.refcounts.refGet old > 1 then
    match s.allocFrame with
    | none => (false,s)
    | some (new,s) =>
      let s := s.fillFrame new (s.mem old)
      let (remaining,rc) := s.refcounts.refDec old
      let s := { s with refcounts := rc }
      let s := if remaining ≤ 1 then s.setPinned old false else s
      let s := s.writePteRaw cr3 page (pte.copied new)
      (true,s.track new cr3 page false)
  else
    (true,(s.writePteRaw cr3 page pte.unshared).setPinned old false)

def breakCowPage (s : Memory) (cr3 va : Nat) : Bool × Memory :=
  let page := frameBase va
  match s.readPteRaw cr3 page with
  | none => (false,s)
  | some pte => if !pte.present || !pte.cow then (true,s) else s.copyOrUnshare cr3 page pte

end Memory

inductive SwapError where
  | io | notActive | noSpace | invalidSlot

namespace Memory

/-- The outcome of the next swap transfer. -/
def nextIo (s : Memory) : Bool × Memory :=
  match s.io with
  | [] => (true,s)
  | ok :: rest => (ok,{ s with io := rest })

/-- The slot stays allocated when the transfer fails. -/
def swapOutInternal (s : Memory) (phys : Nat) : Except SwapError Nat × Memory :=
  if !s.swap.active then (.error .notActive,s)
  else match s.swap.allocSlot with
    | none => (.error .noSpace,s)
    | some (slot,swap) =>
      let (ok,s) := nextIo { s with swap := swap }
      if ok then
        (.ok slot,{ s with disk := Function.update s.disk (s.swap.lbaForSlot slot) (s.mem phys) })
      else (.error .io,s)

def swapInInternal (s : Memory) (slot phys : Nat) : Except SwapError Unit × Memory :=
  if !s.swap.active then (.error .notActive,s)
  else if !s.swap.isUsed slot then (.error .invalidSlot,s)
  else
    let (ok,s) := s.nextIo
    if ok then
      let s := s.fillFrame phys (s.disk (s.swap.lbaForSlot slot))
      (.ok (),{ s with swap := s.swap.freeSlot slot })
    else (.error .io,s)

def markSwappedWithFlags (s : Memory) (cr3 virt slot : Nat) (pteFlags : Pte) : Memory :=
  s.writePteRaw cr3 virt (makeSwapPteWithFlags slot pteFlags)

/-- Write one victim to swap and release its frame. The page table changed is
the one the reverse entry names. -/
def evictOne (s : Memory) : Option Nat × Memory :=
  if !s.swap.active then (none,s)
  else if s.swap.freePages = 0 then (none,s)
  else match s.swapMap.pickVictimAndPin with
    | none => (none,s)
    | some (v,swapMap) =>
      match swapOutInternal { s with swapMap := swapMap } v.phys with
      | (.error _,s) => (none,s.setPinned v.phys false)
      | (.ok slot,s) =>
        let s := s.markSwappedWithFlags v.cr3 v.virt slot v.pteFlags
        (some v.phys,(s.untrack v.phys).freeFrame v.phys)

/-- A frame for swap-in: the emergency pool, else whatever eviction yields. -/
def frameForSwapin (s : Memory) : Option Nat × Memory :=
  match s.pool.pop with
  | some (f,pool) => (some f,{ s with pool := pool })
  | none => match s.evictOne with
    | (none,s) => (none,s)
    | (some _,s) => match s.allocFrame with
      | none => (none,s)
      | some (f,s) => (some f,s)

def trySwapin (s : Memory) (cr3 page slot : Nat) (raw : Pte) : Bool × Memory :=
  match s.frameForSwapin with
  | (none,s) => (false,s)
  | (some phys,s) => match s.swapInInternal slot phys with
    | (.error _,s) => (false,s.freeFrame phys)
    | (.ok (),s) =>
      let s := (s.mapPage cr3 page phys (swapinFlags raw)).2
      (true,s.track phys cr3 page false)

def refillLoop (s : Memory) : Nat → Memory
  | 0 => s
  | n + 1 => match s.allocFrame with
    | none => s
    | some (f,t) => match t.pool.push f with
      | none => t.freeFrame f
      | some pool => refillLoop { t with pool := pool } n

/-- `pmm::refill_emergency_pool`, run by `swapon`. -/
def refillEmergencyPool (s : Memory) : Memory :=
  s.refillLoop (emergencyPoolSize - s.pool.frames.length)

def evictLoop (s : Memory) : Nat → Option (Nat × Memory)
  | 0 => none
  | fuel + 1 =>
    if s.pool.frames.length < emergencyHighWater then
      match s.evictOne with
      | (none,t) => some (0,t)
      | (some _,t) => (evictLoop t fuel).map fun r => (r.1 + 1,r.2)
    else some (0,s)

/-- `swap_map::refill_emergency_pool`, run by `kswapd`, with the number of pages it evicts.
The frame of an evicted page goes to the allocator and not to the pool. -/
def evictToRefillEmergencyPool (s : Memory) (fuel : Nat) : Option (Nat × Memory) :=
  if s.pool.frames.length ≥ emergencyLowWater then some (0,s) else s.evictLoop fuel

end Memory

end Miku.Mm
