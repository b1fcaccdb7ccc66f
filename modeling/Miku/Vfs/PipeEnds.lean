import Miku.Vfs.State

namespace Miku.Vfs
open Function

def OpenFlags.cloexec : UInt32 := 0x0800

def anyWriterOn (t : FdTable) (id : Nat) : Bool :=
  (List.range maxOpenFiles).any fun fd => (t fd).any fun f => f.vnodeId == id && f.flags.has OpenFlags.write

inductive Life where
  | absent | alive | dead
  deriving DecidableEq

/-- Where a process is in a call that takes the lock more than once. -/
inductive Phase where
  | user
  /-- `sys_read` on the pipe for at most `len` bytes. It will look for writers, having
  found nothing, or for data. -/
  | reading (len : Nat) (empty : Bool)
  /-- `sys_fork` has copied the descriptors to the child, which is not a process yet. -/
  | forking (child : Nat)
  /-- `sys_exit` has given up the descriptors. -/
  | exiting
  deriving DecidableEq

/-- Processes and their descriptors, with one pipe. `eof` are the readers whose call has
returned 0. -/
structure Pipeline where
  tables : Nat → FdTable
  life : Nat → Life
  phase : Nat → Phase
  nextPid : Nat
  vnode : Nat
  size : Nat
  readPos : Nat
  eof : List Nat

/-- The calls of a process not in another one. -/
inductive PipeCall where
  | open (id : Nat) (flags : OpenFlags)
  | close (fd : Nat)
  | dup (oldFd : Nat)
  | dup2 (oldFd newFd : Nat)
  | exec
  | fork
  | exit
  | write (fd n : Nat)
  | read (fd len : Nat)
  deriving DecidableEq

/-- Each event is one section under the lock, or one change of a process. -/
inductive PipeEvent where
  | call (pid : Nat) (c : PipeCall)
  /-- The next section of the loop in `sys_read`. -/
  | attempt (pid : Nat)
  /-- `sys_fork` makes the child a process. -/
  | register (pid : Nat)
  /-- `sys_exit` ends the process. -/
  | die (pid : Nat)
  /-- `kill_with_code` by `sys_kill`, by a fatal signal or by a delivery that fails. -/
  | kill (pid : Nat)
  | reap (pid : Nat)
  deriving DecidableEq

namespace Pipeline

variable (s : Pipeline)

def setTable (pid : Nat) (t : FdTable) : Pipeline := { s with tables := update s.tables pid t }

def setPhase (pid : Nat) (p : Phase) : Pipeline := { s with phase := update s.phase pid p }

def setLife (pid : Nat) (l : Life) : Pipeline := { s with life := update s.life pid l }

/-- `pipe_writer_pids` finds one. -/
def hasWriter : Bool := (List.range s.nextPid).any fun pid => anyWriterOn (s.tables pid) s.vnode

def freeFd (pid : Nat) : Option Nat :=
  (List.range' reservedStdioFds (maxOpenFiles - reservedStdioFds)).find? fun fd => (s.tables pid fd).isNone

/-- `FdTable::alloc`; without a free descriptor the call fails. -/
def alloc (pid : Nat) (f : OpenFile) : Pipeline :=
  match s.freeFd pid with
  | some fd => s.setTable pid (update (s.tables pid) fd (some f))
  | none => s

def getFd (pid fd : Nat) : Option OpenFile := if fd < maxOpenFiles then s.tables pid fd else none

/-- `pipe_try_read` has two sections: the data, and if there are none the writers. -/
def attempt (pid : Nat) : Pipeline :=
  match s.phase pid with
  | .reading len false =>
    if s.size ≤ s.readPos then s.setPhase pid (.reading len true)
    else { s.setPhase pid .user with readPos := s.readPos + min len (s.size - s.readPos) }
  | .reading len true =>
    if s.hasWriter then s.setPhase pid (.reading len false)
    else { s.setPhase pid .user with eof := pid :: s.eof }
  | _ => s

def call (pid : Nat) : PipeCall → Pipeline
  -- a pipe has no name, so it is not what is opened
  | .open id flags => if id = s.vnode then s else s.alloc pid ⟨id,flags,0⟩
  | .close fd => s.setTable pid (update (s.tables pid) fd none)
  | .dup oldFd =>
    match s.getFd pid oldFd with
    | some f => s.alloc pid f
    | none => s
  | .dup2 oldFd newFd =>
    match s.getFd pid oldFd with
    | some f =>
      if newFd < maxOpenFiles then s.setTable pid (update (s.tables pid) newFd (some f)) else s
    | none => s
  | .exec => s.setTable pid fun fd => (s.tables pid fd).filter fun f => !f.flags.has OpenFlags.cloexec
  | .fork =>
    { (s.setTable s.nextPid (s.tables pid)).setPhase pid (.forking s.nextPid) with
      nextPid := s.nextPid + 1 }
  | .exit => (s.setTable pid fun _ => none).setPhase pid .exiting
  | .write fd n =>
    match s.getFd pid fd with
    | some f =>
      if f.vnodeId = s.vnode ∧ f.flags.has OpenFlags.write then { s with size := s.size + n } else s
    | none => s
  | .read fd len =>
    match s.getFd pid fd with
    | some f => if f.vnodeId = s.vnode ∧ 0 < len then s.setPhase pid (.reading len false) else s
    | none => s

def step (s : Pipeline) : PipeEvent → Pipeline
  | .call pid c => if s.phase pid = .user then s.call pid c else s
  | .attempt pid => s.attempt pid
  | .register pid =>
    match s.phase pid with
    | .forking child => (s.setLife child .alive).setPhase pid .user
    | _ => s
  | .die pid => if s.phase pid = .exiting then s.setLife pid .dead else s
  | .kill pid => if s.life pid = .alive then s.setLife pid .dead else s
  | .reap pid => if s.life pid = .dead then (s.setTable pid fun _ => none).setLife pid .absent else s

def run (s : Pipeline) (es : List PipeEvent) : Pipeline := es.foldl step s

end Pipeline

end Miku.Vfs
