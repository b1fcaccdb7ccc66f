import Miku.Mm.Vmm
import Miku.Mm.Vma

namespace Miku.Mm

namespace Memory

def unmapPages (s : Memory) (cr3 base pages : Nat) : Memory :=
  (List.range pages).foldl (fun s i => s.unmapPage cr3 (base + i * pageSize)) s

def mapFreshLoop (cr3 base : Nat) (flags : Pte) (s : Memory) (i : Nat) : Nat → Bool × Memory
  | 0 => (true,s)
  | n + 1 => match s.allocFrame with
    | none => (false,s.unmapPages cr3 base i)
    | some (phys,s) =>
      match (s.fillFrame phys zeroPage).mapPage cr3 (base + i * pageSize) phys flags with
      | (true,s) => mapFreshLoop cr3 base flags s (i + 1) n
      | (false,s) => (false,(s.freeFrame phys).unmapPages cr3 base i)

/-- Zero-filled frames over `[base, base + pages)`; a failure unmaps what this call mapped.
-/
def mapFreshPages (s : Memory) (cr3 base pages : Nat) (flags : Pte) : Bool × Memory :=
  mapFreshLoop cr3 base flags s 0 pages

/-- The page-table half of `sys_mprotect`. -/
def reprotectPages (s : Memory) (cr3 base pages : Nat) (flags : Pte) : Memory :=
  (List.range pages).foldl (fun s i =>
    let p := base + i * pageSize
    match s.virtToPhys cr3 p with
    | none => s
    | some phys => ((s.unmapPageNoFree cr3 p).mapPage cr3 p phys flags).2) s

end Memory

/-- The memory manager with its table of VMA maps. `readAtVnode id off len` is
what the file system delivers into a zeroed page, `none` when it fails. -/
structure Kernel where
  mm : Memory
  vmas : Nat → Option VmaMap
  readAtVnode : Nat → Nat → Nat → Option Page

namespace Kernel

def vmaOf (k : Kernel) (cr3 : Nat) : VmaMap := (k.vmas cr3).getD .new

def setVma (k : Kernel) (cr3 : Nat) (m : VmaMap) : Kernel :=
  { k with vmas := Function.update k.vmas cr3 (some m) }

def modifyVma (k : Kernel) (cr3 : Nat) (f : VmaMap → VmaMap) : Kernel :=
  k.setVma cr3 (f (k.vmaOf cr3))

def vmaLookup (k : Kernel) (cr3 addr : Nat) : Option Vma := (k.vmaOf cr3).find addr

def kernelRegisterVma (k : Kernel) (cr3 start end_ prot : Nat) : Kernel :=
  if start ≥ end_ then k else k.modifyVma cr3 (fun m => m.insert ⟨start,end_,prot,none⟩)

def vmaCleanup (k : Kernel) (cr3 : Nat) : Kernel :=
  { k with vmas := Function.update k.vmas cr3 none }

def vmaClone (k : Kernel) (src dst : Nat) : Kernel :=
  match k.vmas src with
  | none => k
  | some m => k.setVma dst m

def handleAnonFault (k : Kernel) (cr3 page : Nat) (v : Vma) : Bool × Kernel :=
  if ((k.mm.readPteRaw cr3 page).map Pte.present).getD false then (true,k)
  else match k.mm.allocFrame with
    | none => (false,k)
    | some (phys,mm) =>
      let (ok,mm) := (mm.fillFrame phys zeroPage).mapPage cr3 page phys (protToFlags v.prot)
      if ok then (true,{ k with mm := mm }) else (false,{ k with mm := mm.freeFrame phys })

/-- The page past the end of the file stays zero. -/
def handleFileFault (k : Kernel) (cr3 faultAddr : Nat) : Bool × Kernel :=
  let page := frameBase faultAddr
  match k.vmaLookup cr3 page with
  | none => (false,k)
  | some v => match v.backing with
    | none => (false,k)
    | some b =>
      let fileOff := (b.fileOff + (page - v.start)) % u64Size
      match k.mm.allocFrame with
      | none => (false,k)
      | some (phys,mm) =>
        let data := if fileOff < b.fileSize then
          k.readAtVnode b.vnodeId fileOff (min (b.fileSize - fileOff) pageSize)
          else some zeroPage
        match data with
        | none => (false,{ k with mm := (mm.fillFrame phys zeroPage).freeFrame phys })
        | some data =>
          let (ok,mm) := (mm.fillFrame phys data).mapPage cr3 page phys (protToFlags v.prot)
          if ok then (true,{ k with mm := mm }) else (false,{ k with mm := mm.freeFrame phys })

def handleVmaFault (k : Kernel) (cr3 faultAddr : Nat) (fromUser : Bool) : Bool × Kernel :=
  let page := frameBase faultAddr
  if page ≥ userEnd then (false,k)
  else if ((k.mm.readPteRaw cr3 page).map isSwapPte).getD false then (false,k)
  else match k.vmaLookup cr3 page with
    | none => (false,k)
    | some v => match v.backing with
      | some _ => if fromUser then k.handleFileFault cr3 faultAddr else (false,k)
      | none => k.handleAnonFault cr3 page v

/-- Swap-in and copy-on-write, in the order the handler tries them: whether
one of them resolved the fault. -/
def faultOnEntry (k : Kernel) (cr3 page : Nat) (pte : Pte) (isWrite : Bool) : Bool × Kernel :=
  let (done,mm) := if isSwapPte pte then k.mm.trySwapin cr3 page (slotFromPte pte) pte
    else (false,k.mm)
  if done then (true,{ k with mm := mm })
  else if isWrite && pte.present && pte.cow then
    let (done,mm) := mm.copyOrUnshare cr3 page pte
    (done,{ k with mm := mm })
  else (false,{ k with mm := mm })

/-- `page_fault_handler` up to the point where the process would be killed:
whether the fault was resolved, and the state it leaves. -/
def pageFaultHandler (k : Kernel) (cr3 faultAddr : Nat) (isWrite fromUser : Bool) :
    Bool × Kernel :=
  let page := frameBase faultAddr
  let safeToWalk := page != 0 && page < userEnd
  let (done,k) := match (if safeToWalk then k.mm.readPteRaw cr3 page else none) with
    | some pte => k.faultOnEntry cr3 page pte isWrite
    | none => (false,k)
  if done then (true,k)
  else if safeToWalk && !((k.mm.readPteRaw cr3 page).map Pte.present).getD false then
    k.handleVmaFault cr3 faultAddr fromUser
  else (false,k)

def eInval : Int := -22
def eNoMem : Int := -12
def mapFixed : Nat := 0x10

def protRejected (prot : Nat) : Bool :=
  (protHas prot protWrite && protHas prot protExec) ||
    prot &&& (protRead ||| protWrite ||| protExec) != prot

def sysMmap (k : Kernel) (cr3 addr length prot flags : Nat) : Int × Kernel :=
  if length = 0 ∨ protRejected prot then (eInval,k) else
    match checkedAlignUp length with
    | none => (eInval,k)
    | some size =>
      let pages := size / pageSize
      let fixed := protHas flags mapFixed
      if fixed ∧ (addr = 0 ∨ addr % pageSize ≠ 0 ∨ userEndFor addr size = none) then (eInval,k)
      else
        let placed := if fixed then
            let k := { k with mm := k.mm.unmapPages cr3 addr pages }
            some (addr,k.modifyVma cr3 (fun m => m.removeRange addr (addr + size)))
          else ((k.vmaOf cr3).findAndInsert size prot none).map fun (base,m) =>
            (base,k.setVma cr3 m)
        match placed with
        | none => (eNoMem,k)
        | some (base,k) =>
          let end_ := base + size
          match k.mm.mapFreshPages cr3 base pages (protToFlags prot) with
          | (false,mm) =>
            let k := { k with mm := mm.unmapPages cr3 base pages }
            (eNoMem,if fixed then k else k.modifyVma cr3 (fun m => m.removeRange base end_))
          | (true,mm) =>
            let k := { k with mm := mm }
            (base,if fixed then
                k.modifyVma cr3 (fun m => m.insertMerged ⟨base,end_,prot,none⟩)
              else k)

/-- Pages are not mapped here: they fault in from the file. Dirty shared pages
written back on the way out change no memory state and are not represented. -/
def sysMmapFile (k : Kernel) (cr3 addr length prot flags : Nat) (backing : FileBacking) :
    Int × Kernel :=
  if length = 0 ∨ protRejected prot ∨ backing.fileOff % pageSize ≠ 0 then (eInval,k) else
    match checkedAlignUp length with
    | none => (eInval,k)
    | some size =>
      let fixed := protHas flags mapFixed
      if fixed then
        if addr = 0 ∨ addr % pageSize ≠ 0 ∨ userEndFor addr size = none then (eInval,k) else
          let k := { k with mm := k.mm.unmapPages cr3 addr (size / pageSize) }
          (addr,k.modifyVma cr3 (fun m =>
            (m.removeRange addr (addr + size)).insertMerged
              ⟨addr,addr + size,prot,some backing⟩))
      else match (k.vmaOf cr3).findAndInsert size prot (some backing) with
        | none => (eNoMem,k)
        | some (base,m) => (base,k.setVma cr3 m)

def sysMunmap (k : Kernel) (cr3 addr length : Nat) : Int × Kernel :=
  if addr % pageSize ≠ 0 then (eInval,k)
  else if length = 0 then (0,k)
  else match checkedAlignUp length with
    | none => (eInval,k)
    | some size => match userEndFor addr size with
      | none => (eInval,k)
      | some end_ =>
        let k := { k with mm := k.mm.unmapPages cr3 addr (size / pageSize) }
        (0,k.modifyVma cr3 (fun m => m.removeRange addr end_))

def sysMprotect (k : Kernel) (cr3 addr length prot : Nat) : Int × Kernel :=
  if addr % pageSize ≠ 0 then (eInval,k)
  else if length = 0 then (0,k)
  else if protRejected prot then (eInval,k)
  else match checkedAlignUp length with
    | none => (eInval,k)
    | some size => match userEndFor addr size with
      | none => (eInval,k)
      | some end_ =>
        let k := { k with
          mm := k.mm.reprotectPages cr3 addr ((end_ - addr) / pageSize) (protToFlags prot) }
        (0,k.modifyVma cr3 (fun m =>
          (m.removeRange addr end_).insertMerged ⟨addr,end_,prot,none⟩))

def sysBrk (k : Kernel) (cr3 newBrk : Nat) : Nat × Kernel :=
  let m := k.vmaOf cr3
  let cur := m.brk
  if newBrk = 0 then (cur,k) else
    match (checkedAlignUp newBrk).filter (fun v => v < userEnd) with
    | none => (cur,k)
    | some new =>
      if new < m.brkFloor then (cur,k)
      else if new ≤ cur then
        let k := { k with mm := k.mm.unmapPages cr3 new ((cur - new) / pageSize) }
        (new,k.modifyVma cr3 (fun m => { m.removeRange new cur with brk := new }))
      else
        let flags := ptePresent ||| pteWritable ||| pteUser ||| pteNoExecute
        match k.mm.mapFreshPages cr3 cur ((new - cur) / pageSize) flags with
        | (false,mm) => (cur,{ k with mm := mm })
        | (true,mm) =>
          let k := { k with mm := mm }
          (new,k.modifyVma cr3 (fun m =>
            { m.insertMerged ⟨cur,new,protRead ||| protWrite,none⟩ with brk := new }))

end Kernel

namespace Memory

/-- The entry the processor uses for `va` when it runs on `cr3`. -/
def pteAt (s : Memory) (cr3 va : Nat) : Option Pte := (s.space cr3).bind (fun p4 => p4.pteAt va)

/-- A byte a program can read without faulting. -/
def load (s : Memory) (cr3 va : Nat) : Option UInt8 :=
  match s.pteAt cr3 va with
  | none => none
  | some pte =>
    if pte.present then some (s.mem pte.addr ⟨va % 4096,Nat.mod_lt _ (by decide)⟩) else none

/-- The byte an address stands for, whether its page is in memory or has been
swapped out. -/
def content (s : Memory) (cr3 va : Nat) : Option UInt8 :=
  match s.pteAt cr3 va with
  | none => none
  | some pte =>
    if pte.present then some (s.mem pte.addr ⟨va % 4096,Nat.mod_lt _ (by decide)⟩)
    else if isSwapPte pte then
      some (s.disk (s.swap.lbaForSlot (slotFromPte pte)) ⟨va % 4096,Nat.mod_lt _ (by decide)⟩)
    else none

/-- A user store. It goes through only where the entry allows it; everything else is a
fault, a step of its own. -/
def store (s : Memory) (cr3 va : Nat) (byte : UInt8) : Memory :=
  match s.pteAt cr3 va with
  | none => s
  | some pte =>
    if pte.present && pte.writable && pte.user then
      s.fillFrame pte.addr
        (Function.update (s.mem pte.addr) ⟨va % 4096,Nat.mod_lt _ (by decide)⟩ byte)
    else s

end Memory

/-- All that can happen to the memory of the machine, by any process. -/
inductive Op where
  | newUser
  /-- Some kernel code takes a frame and keeps it. -/
  | allocFrame
  | refillPool
  | fork (cr3 : Nat)
  | fault (cr3 addr : Nat) (isWrite fromUser : Bool)
  | breakCow (cr3 va : Nat)
  | store (cr3 va : Nat) (byte : UInt8)
  | evict
  | age
  | exit (cr3 : Nat)
  | registerVma (cr3 start end_ prot : Nat)
  | mmap (cr3 addr length prot flags : Nat)
  | mmapFile (cr3 addr length prot flags : Nat) (backing : FileBacking)
  | munmap (cr3 addr length : Nat)
  | mprotect (cr3 addr length prot : Nat)
  | brk (cr3 newBrk : Nat)

namespace Kernel

def withMm (k : Kernel) (mm : Memory) : Kernel := { k with mm := mm }

/-- `sys_fork` as far as memory goes: the child inherits the parent's VMAs. -/
def fork (k : Kernel) (cr3 : Nat) : Kernel :=
  match k.mm.cloneCow cr3 with
  | (none,mm) => k.withMm mm
  | (some child,mm) => (k.withMm mm).vmaClone cr3 child

def exit (k : Kernel) (cr3 : Nat) : Kernel :=
  let k := k.vmaCleanup cr3
  k.withMm (k.mm.freeAddressSpace cr3)

def step (k : Kernel) : Op → Kernel
  | .newUser => match k.mm.newUser with
    | none => k
    | some (_,mm) => k.withMm mm
  | .allocFrame => match k.mm.allocFrame with
    | none => k
    | some (_,mm) => k.withMm mm
  | .refillPool => k.withMm k.mm.refillEmergencyPool
  | .fork cr3 => k.fork cr3
  | .fault cr3 addr isWrite fromUser => (k.pageFaultHandler cr3 addr isWrite fromUser).2
  | .breakCow cr3 va => k.withMm (k.mm.breakCowPage cr3 va).2
  | .store cr3 va byte => k.withMm (k.mm.store cr3 va byte)
  | .evict => k.withMm k.mm.evictOne.2
  | .age => k.withMm { k.mm with swapMap := k.mm.swapMap.ageAll }
  | .exit cr3 => k.exit cr3
  | .registerVma cr3 start end_ prot => k.kernelRegisterVma cr3 start end_ prot
  | .mmap cr3 addr length prot flags => (k.sysMmap cr3 addr length prot flags).2
  | .mmapFile cr3 addr length prot flags b => (k.sysMmapFile cr3 addr length prot flags b).2
  | .munmap cr3 addr length => (k.sysMunmap cr3 addr length).2
  | .mprotect cr3 addr length prot => (k.sysMprotect cr3 addr length prot).2
  | .brk cr3 newBrk => (k.sysBrk cr3 newBrk).2

def run (k : Kernel) (ops : List Op) : Kernel := ops.foldl step k

/-- The kernel before the first address space exists. Which frames firmware and
kernel occupy is left open. -/
structure Boot (k : Kernel) : Prop where
  spaces : k.mm.spaces = []
  refcounts : k.mm.refcounts = fun _ => none
  pool : k.mm.pool.frames = []
  hint : k.mm.pmm.freeHint ≤ frameCap

end Kernel

/-- A machine whose first four megabytes are taken and whose swap is off. -/
def sampleKernel : Kernel where
  mm :=
    { pmm := ⟨fun w => if w < 16 then BitVec.allOnes 64 else 0#64,1048576,1024,0,0⟩
      refcounts := fun _ => none
      pool := ⟨[]⟩
      swapMap := .new
      swap := .new
      mem := fun _ => zeroPage
      disk := fun _ => zeroPage
      io := []
      spaces := [] }
  vmas := fun _ => none
  readAtVnode := fun _ _ _ => none

theorem sample_boot : sampleKernel.Boot := ⟨rfl,rfl,rfl,by decide⟩

/-- One process with one anonymous read-write page, faulted in by a write. -/
def onePage : List Op :=
  [.newUser,.registerVma 0x400000 0x600000 0x601000 3,.fault 0x400000 0x600000 true true]

/-- The same machine with a small swap device. -/
def swapKernel : Kernel :=
  { sampleKernel with mm := { sampleKernel.mm with swap := ⟨true,1000,64,0,fun _ => 0#64⟩ } }

/-- One process stores a seven into its page, which reclaim then swaps out. -/
def swappedPage : List Op :=
  [.refillPool,.newUser,.registerVma 0x440000 0x600000 0x601000 3,
    .fault 0x440000 0x600000 true true,.store 0x440000 0x600000 7,.evict]

end Miku.Mm
