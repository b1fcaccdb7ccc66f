import Mathlib.Data.List.Basic
import Mathlib.Logic.Function.Basic

namespace Miku.Sched

inductive ProcState where
  | ready | running | sleeping | blocked | dead
  deriving DecidableEq, Repr

/-- The atomic steps of a process that ends. `load` and `cas` are the two halves of
`wakeup`. -/
inductive ExitStep where
  /-- `kill_with_code` sets the state to `DEAD`. -/
  | mark
  /-- `wakeup` loads the state of the parent. -/
  | load
  /-- `wakeup` puts the parent from the state it has seen to `READY`. -/
  | cas (seen : ProcState)
  /-- `send_signal` sets the bit of `SIGCHLD`. -/
  | signal
  deriving DecidableEq

/-- `exit` and `kill` wake the parent, and again with and after `SIGCHLD`. -/
def exitProgram : List ExitStep := [.mark,.load,.signal,.load,.load]

/-- A fatal signal only wakes the parent. -/
def fatalProgram : List ExitStep := [.mark,.load]

structure Child where
  todo : List ExitStep
  dead : Bool
  collected : Bool

/-- Where the parent is in `sys_wait4`. -/
inductive WaitPc where
  | user
  /-- `find_zombie_child` has these children before it. -/
  | scan (todo : List Nat)
  /-- Before the tests for children and for `WNOHANG`. -/
  | check
  /-- Before the test for signals. -/
  | test
  /-- Before `block_current` stores the state. -/
  | block
  /-- Switched away. -/
  | away
  deriving DecidableEq

/-- A parent and its children. `target` is the child it waits for, if it is not any;
`pending` says whether a signal is. -/
structure Family where
  parent : ProcState
  pc : WaitPc
  target : Option Nat
  nohang : Bool
  sigEntry : Bool
  sigInDelivery : Bool
  pending : Bool
  children : List Nat
  child : Nat → Child

inductive Event where
  /-- `sys_wait4` is called. -/
  | call (target : Option Nat) (nohang : Bool)
  /-- `find_zombie_child` looks at the next child. -/
  | look
  | check
  | test
  | block
  | preempt
  /-- The scheduler runs the parent. -/
  | resume
  /-- The parent forks in between. -/
  | fork (c : Nat)
  /-- A child starts to end: by itself or by `kill`, or by a fatal signal. -/
  | ends (c : Nat) (fatal : Bool)
  | childStep (c : Nat)
  /-- Another process sends the parent a signal. -/
  | signalled
  /-- `deliver_pending` takes the lowest signal; `more` says whether there is another. -/
  | deliver (more : Bool)
  | sigentry
  | sigreturn

namespace Family

def waitsFor (s : Family) (c : Nat) : Bool := s.target.all (· == c)

def hasDeliverable (s : Family) : Bool := s.sigEntry && !s.sigInDelivery && s.pending

def setChild (s : Family) (c : Nat) (x : Child) : Family :=
  { s with child := Function.update s.child c x }

/-- `find_zombie_child` collects a dead child and `reap_zombie` removes it. -/
def collect (s : Family) (c : Nat) : Family :=
  { s.setChild c { s.child c with collected := true } with
    children := s.children.erase c
    pc := .user }

def lookNext (s : Family) : List Nat → Family
  | [] => { s with pc := .check }
  | c :: cs =>
    if s.waitsFor c && (s.child c).dead && !(s.child c).collected then s.collect c
    else { s with pc := .scan cs }

/-- What wakes a parent in the state seen. -/
def wake (s : Family) (seen : ProcState) : Family :=
  if s.parent = seen then { s with parent := .ready } else s

def exitStep (s : Family) (c : Nat) : Family :=
  let x := s.child c
  match x.todo with
  | [] => s
  | .mark :: rest => s.setChild c { x with todo := rest, dead := true }
  | .load :: rest =>
    if s.parent = .sleeping ∨ s.parent = .blocked then
      s.setChild c { x with todo := .cas s.parent :: rest }
    else s.setChild c { x with todo := rest }
  | .cas seen :: rest => (s.wake seen).setChild c { x with todo := rest }
  | .signal :: rest => { s.setChild c { x with todo := rest } with pending := true }

/-- Events that cannot happen now change nothing. -/
def step (s : Family) : Event → Family
  | .call target nohang =>
    if s.parent = .running ∧ s.pc = .user then
      { s with
        target := target
        nohang := nohang
        pc := .scan s.children }
    else s
  | .look =>
    match s.pc with
    | .scan todo => if s.parent = .running then s.lookNext todo else s
    | _ => s
  | .check =>
    if s.parent = .running ∧ s.pc = .check then
      { s with pc := if s.children.isEmpty || s.nohang then .user else .test }
    else s
  | .test =>
    if s.parent = .running ∧ s.pc = .test then
      { s with pc := if s.hasDeliverable then .user else .block }
    else s
  | .block =>
    if s.parent = .running ∧ s.pc = .block then
      { s with
        parent := .blocked
        pc := .away }
    else s
  | .preempt => if s.parent = .running then { s with parent := .ready } else s
  | .resume =>
    if s.parent = .ready then
      { s with
        parent := .running
        pc := if s.pc = .away then .scan s.children else s.pc }
    else s
  | .fork c =>
    if s.parent = .running ∧ s.pc = .user ∧ c ∉ s.children then
      { s.setChild c ⟨[],false,false⟩ with children := s.children ++ [c] }
    else s
  | .ends c fatal =>
    if c ∈ s.children ∧ (s.child c).todo = [] ∧ (s.child c).dead = false then
      s.setChild c { s.child c with todo := if fatal then fatalProgram else exitProgram }
    else s
  | .childStep c => s.exitStep c
  | .signalled =>
    let s := { s with pending := true }
    if s.parent = .sleeping ∨ s.parent = .blocked then { s with parent := .ready } else s
  | .deliver more =>
    if s.parent = .running ∧ s.pc = .user ∧ s.hasDeliverable then
      { s with
        pending := more
        sigInDelivery := true }
    else s
  | .sigentry => if s.parent = .running ∧ s.pc = .user then { s with sigEntry := true } else s
  | .sigreturn => if s.parent = .running ∧ s.pc = .user then { s with sigInDelivery := false } else s

def run (s : Family) (es : List Event) : Family := es.foldl step s

end Family

open Function

def maxProcs : Nat := 4096

structure Process where
  ppid : Nat
  state : ProcState
  exitCode : Nat
  collected : Bool
  onRq : Bool

namespace Process

/-- `add_process` puts it on a queue. -/
def born (ppid : Nat) : Process := ⟨ppid,.ready,0,false,true⟩

def die (code : Nat) (p : Process) : Process :=
  { p with exitCode := code, state := .dead, onRq := false }

def wake (p : Process) : Process :=
  if p.state = .sleeping ∨ p.state = .blocked then { p with state := .ready, onRq := true } else p

/-- `yield_now`, and `schedule_from_isr` before it looks for the next one. -/
def requeue (p : Process) : Process :=
  if p.state = .running then { p with state := .ready, onRq := true } else p

/-- `sleep` and `block_current` store over any state, also that of a process killed. -/
def suspend (sleep : Bool) (p : Process) : Process :=
  { p with state := if sleep then .sleeping else .blocked }

/-- A CPU takes it from a queue. -/
def dispatch (p : Process) : Process := { p with state := .running, onRq := false }

end Process

/-- `PROC_TABLE`, and the processes that are the current one of some CPU. What the code does
not keep: of a child that died while its parent lived, the parent and the code (`ended`), and
what `wait4` has returned: caller, child and code. -/
structure Table where
  procs : Nat → Option Process
  nextPid : Nat
  running : Nat → Bool
  ended : Nat → Option (Nat × Nat)
  returned : List (Nat × Nat × Nat)

namespace Table

variable (s : Table)

/-- `PROC_INDEX` has the process. -/
def indexed (pid : Nat) : Bool := decide (pid < maxProcs) && (s.procs pid).isSome

def alive (pid : Nat) : Bool := (s.procs pid).any fun p => p.state ≠ .dead

def modify (pid : Nat) (f : Process → Process) : Table :=
  { s with procs := update s.procs pid ((s.procs pid).map f) }

def queued (pid : Nat) : Bool := (s.procs pid).any (·.onRq)

/-- What is done to a process that is looked up in `PROC_INDEX`. -/
def touch (pid : Nat) (f : Process → Process) : Table :=
  if s.indexed pid then s.modify pid f else s

def wakeup (pid : Nat) : Table := s.touch pid Process.wake

def birth (ppid : Nat) : Table :=
  { s with
    procs := update s.procs s.nextPid (some (.born ppid))
    nextPid := s.nextPid + 1 }

/-- The children of a process that ends go to `init`. -/
def reparent (pid : Nat) : Table :=
  if s.indexed 1 && pid != 1 then
    { s with procs := fun c => (s.procs c).map fun p => if p.ppid = pid then { p with ppid := 1 } else p }
  else s

/-- What is noted of the death of a process that lives. -/
def noteEnd (pid code : Nat) : Table :=
  match s.procs pid with
  | some p =>
    if p.state ≠ .dead ∧ s.alive p.ppid then
      { s with ended := update s.ended pid (some (p.ppid,code)) }
    else s
  | none => s

/-- The processes that `reap_dead` removes. -/
def reapable (pid : Nat) : Bool :=
  (s.procs pid).any fun p => p.state = .dead && !s.running pid && !p.onRq

def killWithCode (pid code : Nat) : Table :=
  if s.indexed pid then
    let ppid := (s.procs pid).elim 0 Process.ppid
    let s := (s.noteEnd pid code).modify pid (Process.die code)
    let s := s.reparent pid
    if ppid = 0 then s else s.wakeup ppid
  else s.reparent pid

def reapDead : Table :=
  { s with procs := fun pid => if s.reapable pid then none else s.procs pid }

/-- `add_process`, behind the `reap_dead` of every function that makes one. -/
def addProcess (ppid : Nat) : Table := s.reapDead.birth ppid

/-- A dead child of `parent`, the one it asks for or any. -/
def isZombie (parent : Nat) (target : Option Nat) (pid : Nat) : Bool :=
  (s.procs pid).any fun p => p.ppid = parent && target.all (· == pid) && p.state = .dead && !p.collected

/-- The table is searched by ascending numbers. -/
def findZombieChild (parent : Nat) (target : Option Nat) : Option Nat :=
  (List.range s.nextPid).find? (s.isZombie parent target)

def reapZombie (pid : Nat) : Table := { s with procs := update s.procs pid none }

/-- One round of the loop in `sys_wait4`; the `block_current` behind it is a step of its own. -/
def wait4 (parent : Nat) (target : Option Nat) : Table :=
  match s.findZombieChild parent target with
  | some c =>
    let code := (s.procs c).elim 0 Process.exitCode
    { (s.modify c fun p => { p with collected := true }).reapZombie c with
      returned := s.returned ++ [(parent,c,code)] }
  | none => s

end Table

/-- What processes do, and the scheduler. `exec` does not touch the table. -/
inductive TableEvent where
  | fork (parent : Nat)
  /-- A kernel thread, with a parent or with 0. -/
  | spawn (ppid : Nat)
  | exec (pid : Nat)
  | exit (pid code : Nat)
  /-- `SIGKILL`, `SIGTERM` or another fatal signal, with the code it gives. -/
  | kill (pid code : Nat)
  | wait4 (parent : Nat) (target : Option Nat)
  | wakeup (pid : Nat)
  | requeue (pid : Nat)
  | suspend (pid : Nat) (sleep : Bool)
  | dispatch (pid : Nat)
  /-- Others are the current processes of the CPUs. -/
  | switch (running : Nat → Bool)

namespace Table

def step (s : Table) : TableEvent → Table
  | .fork parent => s.addProcess parent
  | .spawn ppid => s.addProcess ppid
  | .exec _ => s
  | .exit pid code => s.killWithCode pid code
  | .kill pid code => s.killWithCode pid code
  | .wait4 parent target => s.wait4 parent target
  | .wakeup pid => s.wakeup pid
  | .requeue pid => s.touch pid Process.requeue
  | .suspend pid sleep => s.touch pid (Process.suspend sleep)
  | .dispatch pid => if s.queued pid then s.modify pid Process.dispatch else s
  | .switch running => { s with running := running }

def run (s : Table) (es : List TableEvent) : Table := es.foldl step s

end Table

/-! Who frees a process. A step is what runs with the interrupts off or under the table's lock. -/

/-- The process on each CPU not idle, and the children that `wait4` has found and not
reaped yet. -/
structure Reaper where
  table : Table
  current : List (Option Nat)
  found : List Nat

inductive ReapEvent where
  | spawn (ppid : Nat)
  /-- `kill_with_code` up to the children, which `reparent` takes. -/
  | kill (pid code : Nat)
  | reparent (pid : Nat)
  | wakeup (pid : Nat)
  /-- The process on the CPU goes back to the queue. -/
  | requeue (cpu : Nat)
  | suspend (cpu : Nat) (sleep : Bool)
  /-- The CPU goes over to a process from a queue, or becomes idle. -/
  | switch (cpu : Nat) (next : Option Nat)
  | findZombieChild (parent : Nat) (target : Option Nat)
  | reapZombie (pid : Nat)
  /-- One process of the list in `reap_dead`, which is looked at again. -/
  | reapDead (pid : Nat)

namespace Reaper

variable (s : Reaper)

/-- What `PROC_INDEX` gives for the CPU. -/
def onCpu (cpu : Nat) : Option Nat := (s.current[cpu]?).join.filter s.table.indexed

/-- The CPU does not need another process. -/
def busy (cpu : Nat) : Bool := ((s.onCpu cpu).bind s.table.procs).any (·.state = .running)

def reapable (pid : Nat) : Bool :=
  (s.table.procs pid).any (·.state = .dead) && some pid ∉ s.current && !s.table.queued pid

/-- The child that the step finds. -/
def finds : ReapEvent → Option Nat
  | .findZombieChild parent target => s.table.findZombieChild parent target
  | _ => none

/-- The process whose stack and tables the step gives back. -/
def frees : ReapEvent → Option Nat
  | .reapZombie pid => if pid ∈ s.found ∧ (s.table.procs pid).isSome then some pid else none
  | .reapDead pid => if s.reapable pid then some pid else none
  | _ => none

def modify (pid : Option Nat) (f : Process → Process) : Reaper :=
  { s with table := pid.elim s.table (s.table.modify · f) }

def free (pid : Option Nat) : Reaper := { s with table := pid.elim s.table s.table.reapZombie }

def step (e : ReapEvent) : Reaper :=
  match e with
  | .spawn ppid => { s with table := s.table.birth ppid }
  | .kill pid code => s.modify ((some pid).filter s.table.indexed) (Process.die code)
  | .reparent pid => { s with table := s.table.reparent pid }
  | .wakeup pid => { s with table := s.table.wakeup pid }
  | .requeue cpu => s.modify (s.onCpu cpu) Process.requeue
  | .suspend cpu sleep => s.modify (s.onCpu cpu) (Process.suspend sleep)
  | .switch cpu next =>
    if s.busy cpu || !next.all s.table.queued then s
    else { s.modify next Process.dispatch with current := s.current.set cpu next }
  | .findZombieChild .. => { s.modify (s.finds e) fun p => { p with collected := true } with
      found := (s.finds e).toList ++ s.found }
  | .reapZombie pid => { s.free (s.frees e) with found := s.found.erase pid }
  | .reapDead _ => s.free (s.frees e)

/-- Before the first process. -/
def boot (cpus : Nat) : Reaper :=
  ⟨⟨fun _ => none,1,fun _ => false,fun _ => none,[]⟩,.replicate cpus none,[]⟩

end Reaper

end Miku.Sched
