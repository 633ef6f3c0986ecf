import Nachos.Lib.GuardedRun
import Nachos.Semaphore

namespace Nachos.PTable
open GuardedRun TwosComplement

abbrev Addr := ℕ
abbrev Name := List UInt8

def maxProcess : Int := 10

/-- The destructor deletes the semaphores and, in `Finish`, never returns; the other
fields stay readable, so a deleted PCB is kept and flagged. -/
structure PCB where
  processID : Int
  parentID : Int
  exitcode : Int
  numwait : Int
  joinsem : Semaphore Addr
  exitsem : Semaphore Addr
  mutex : Semaphore Addr
  filename : Name
  deleted : Bool

/-- The function that a new thread is forked with. -/
inductive Starter where
  | startProcess1 | startProcess2
  deriving DecidableEq, Repr

inductive ExecCall where
  | execUpdate (name : Option Name)
  | execV (argv0 : Name)
  deriving DecidableEq, Repr

/-- Where a thread is: not started, in its user program, or at the next semaphore
call or table access of the system call it is in. -/
inductive PC where
  | start (f : Starter)
  | user
  | execLock (c : ExecCall)
  | execBody (c : ExecCall)
  | execFail
  | execMutex (a : Addr) (f : Starter)
  | execFork (a : Addr) (f : Starter)
  | execUnmutex (a : Addr)
  | execUnlock (a : Addr)
  | joinMutex (id : Int) (parent : Addr)
  | joinInc (id : Int) (parent : Addr)
  | joinWait (id : Int)
  | joinP (id : Int) (a : Addr)
  | joinRead (id : Int)
  | joinV (id : Int) (a : Addr) (exitcode : Int)
  | joinRet (id : Int) (exitcode : Int)
  | exitMutex (parent : Addr)
  | exitDec (parent : Addr)
  | exitRelease
  | exitWait
  | exitP (a : Addr)
  | remove
  deriving DecidableEq, Repr

structure Thread where
  processID : Int
  name : Name
  pc : PC
  r2 : Int

/-- What has happened so far; no step of the code depends on it. -/
structure History where
  /-- Which thread created a process. -/
  creator : Addr → Addr
  /-- What a process passed to `ExitUpdate`. -/
  exitArg : Addr → Option Int
  /-- The pids, with their processes, that a thread's calls of `ExecUpdate` and
  `ExecV` returned and that it has not yet passed to `JoinUpdate`. -/
  pending : Addr → List (Int × Addr)
  /-- The process whose pid a thread passed to its last `JoinUpdate`. -/
  asked : Addr → Option Addr
  /-- The PCB for which a thread's last `JoinUpdate` passed the validity check. -/
  target : Addr → Option Addr
  /-- Whether `ExitRelease` has been carried out on a PCB. -/
  released : Addr → Bool
  /-- The calls of `JoinUpdate` that returned: the caller, whom it asked for, the value. -/
  returned : List (Addr × Option Addr × Int)

namespace History

def create (h : History) (t a : Addr) : History :=
  { h with creator := Function.update h.creator a t }

def execReturn (h : History) (t : Addr) (pid : Int) (a : Addr) : History :=
  { h with pending := Function.update h.pending t ((pid, a) :: h.pending t) }

def ask (h : History) (t : Addr) (id : Int) : History :=
  { h with
    asked := Function.update h.asked t (((h.pending t).find? (·.1 == id)).map Prod.snd)
    pending := Function.update h.pending t ((h.pending t).eraseP (·.1 == id)) }

def joinReturn (h : History) (t : Addr) (exitcode : Int) : History :=
  { h with returned := (t, h.asked t, exitcode) :: h.returned }

def joinFail (h : History) (t : Addr) (id : Int) : History := (h.ask t id).joinReturn t (-1)

def joinCall (h : History) (t : Addr) (id : Int) (a : Addr) : History :=
  { h.ask t id with target := Function.update h.target t (some a) }

def release (h : History) (a : Addr) : History :=
  { h with released := Function.update h.released a true }

def exitCall (h : History) (t : Addr) (exitcode : Int) : History :=
  { h with exitArg := Function.update h.exitArg t (some exitcode) }

end History

inductive Status where
  | running | halted | fault
  deriving DecidableEq, Repr

/-- A PCB and the thread it starts are named by one number, given out in order of creation;
process 0 is number 0.  `fresh a` is what `exitcode` and `numwait` hold before they are first
set. -/
structure State where
  pcb : Int → Option Addr
  heap : Addr → Option PCB
  thr : Addr → Option Thread
  bmsem : Semaphore Addr
  next : Addr
  fresh : Addr → Int × Int
  status : Status
  hist : History

namespace State

def newPCB (pid parentID : Int) (name : Name) (fresh : Int × Int) : PCB :=
  ⟨pid, parentID, fresh.1, fresh.2, .new 0, .new 0, .new 1, name, false⟩

def mainName : Name := "main".toUTF8.toList
def mainThread : Name := "mainthread".toUTF8.toList

/-- `PTable()`, with the main thread in its user program. -/
def init (fresh : Addr → Int × Int) : State where
  pcb := fun i => if i = 0 then some 0 else none
  heap := fun a => if a = 0 then some (newPCB 0 (-1) mainThread (fresh 0)) else none
  thr := fun t => if t = 0 then some ⟨0, mainName, .user, 0⟩ else none
  bmsem := .new 1
  next := 1
  fresh := fresh
  status := .running
  hist := ⟨fun _ => 0, fun _ => none, fun _ => [], fun _ => none, fun _ => none,
    fun _ => false, []⟩

/-- The first empty slot, or -1. -/
def getFreeSlot (s : State) : Int :=
  match (List.range 10).find? fun i : ℕ => (s.pcb (i : Int)).isNone with
  | some i => (i : Int)
  | none => -1

def fail (s : State) : State := { s with status := .fault }

def goto (s : State) (t : Addr) (θ : Thread) (pc : PC) : State :=
  { s with thr := Function.update s.thr t (some { θ with pc := pc }) }

def ret (s : State) (t : Addr) (θ : Thread) (r2 : Int) : State :=
  { s with thr := Function.update s.thr t (some { θ with pc := .user, r2 := r2 }) }

def record (s : State) (h : History) : State := { s with hist := h }

def setPCB (s : State) (a : Addr) (p : PCB) : State :=
  { s with heap := Function.update s.heap a (some p) }

def live (s : State) (a : Addr) : Option PCB := (s.heap a).filter fun p => !p.deleted

def through (s : State) (id : Int) (f : Addr → PCB → State) : State :=
  match s.pcb id with
  | none => s.fail
  | some a =>
    match s.live a with
    | none => s.fail
    | some p => f a p

def onPCB (s : State) (a : Addr) (f : PCB → State) : State :=
  match s.live a with
  | none => s.fail
  | some p => f p

/-- A thread asleep in `P` is on the queue of the semaphore it is at. -/
def asleep (s : State) (t : Addr) : PC → Bool
  | .execLock _ => t ∈ s.bmsem.queue
  | .execMutex a _ | .joinMutex _ a | .exitMutex a =>
    (s.heap a).any fun p => t ∈ p.mutex.queue
  | .joinP _ a => (s.heap a).any fun p => t ∈ p.joinsem.queue
  | .exitP a => (s.heap a).any fun p => t ∈ p.exitsem.queue
  | _ => false

def lockMutex (s : State) (t : Addr) (θ : Thread) (a : Addr) (next : PC) : State :=
  s.onPCB a fun p =>
    let r := p.mutex.P t
    (s.setPCB a { p with mutex := r.1 }).goto t θ (if r.2 then next else θ.pc)

/-- `ExecUpdate` and `ExecV` once they hold `bmsem`. -/
def execBody (s : State) (t : Addr) (θ : Thread) (c : ExecCall) : State :=
  let place (name : Name) (f : Starter) : State :=
    let index := s.getFreeSlot
    if index < 0 then s.goto t θ .execFail
    else
      let a := s.next
      { (s.setPCB a (newPCB index θ.processID name (s.fresh a))).goto t θ (.execMutex a f) with
        pcb := Function.update s.pcb index (some a)
        next := a + 1
        hist := s.hist.create t a }
  match c with
  | .execUpdate none => s.goto t θ .execFail
  | .execUpdate (some name) =>
    if name = θ.name then s.goto t θ .execFail else place name .startProcess1
  | .execV argv0 => place argv0 .startProcess2

/-- `JoinUpdate` up to the first semaphore call. -/
def joinUpdate (s : State) (t : Addr) (θ : Thread) (id : Int) : State :=
  let refuse : State := (s.ret t θ (-1)).record (s.hist.joinFail t id)
  if id < 0 ∨ id ≥ maxProcess then refuse
  else
    match s.pcb id with
    | none => refuse
    | some a =>
      match s.heap a with
      | none => s.fail
      | some p =>
        if p.parentID ≠ θ.processID then refuse
        else
          match s.pcb p.parentID with
          | none => s.fail
          | some parent =>
            (s.goto t θ (.joinMutex id parent)).record (s.hist.joinCall t id a)

/-- `ExitUpdate` up to the first semaphore call. -/
def exitUpdate (s : State) (t : Addr) (θ : Thread) (exitcode : Int) : State :=
  if θ.processID = 0 then { s with status := .halted }
  else
    s.through θ.processID fun a p =>
      match s.pcb p.parentID with
      | none => s.fail
      | some parent =>
        ((s.setPCB a { p with exitcode := exitcode }).goto t θ (.exitMutex parent)).record
          (s.hist.exitCall t exitcode)

/-- `Remove` of the own process.  `~PCB` ends the thread of the PCB if it has the pid of
the current one; `Finish` asserts that it is the current one. -/
def removeSelf (s : State) (t : Addr) (θ : Thread) : State :=
  match s.pcb θ.processID with
  | none => s.ret t θ 0
  | some a =>
    match s.heap a with
    | none => s.fail
    | some p =>
      let s' : State := { s.setPCB a { p with deleted := true } with
        pcb := Function.update s.pcb θ.processID none }
      if (s.thr a).map Thread.processID = some θ.processID then
        if a = t then { s' with thr := Function.update s.thr t none } else s.fail
      else s'.ret t θ 0

/-- The next step of a thread inside the kernel. -/
def advance (s : State) (t : Addr) (θ : Thread) : PC → Option State
  | .user => none
  | .start .startProcess1 => some (s.through θ.processID fun _ _ => s.goto t θ .user)
  | .start .startProcess2 => some (s.goto t θ .user)
  | .execLock c =>
    let r := s.bmsem.P t
    some { s.goto t θ (if r.2 then .execBody c else .execLock c) with bmsem := r.1 }
  | .execBody c => some (s.execBody t θ c)
  | .execFail => some { s.ret t θ (-1) with bmsem := s.bmsem.V.1 }
  | .execMutex a f => some (s.lockMutex t θ a (.execFork a f))
  | .execFork a f => some (s.onPCB a fun p =>
      let s' := s.goto t θ (.execUnmutex a)
      { s' with thr := Function.update s'.thr a (some ⟨p.processID, p.filename, .start f, 0⟩) })
  | .execUnmutex a => some (s.onPCB a fun p =>
      (s.setPCB a { p with mutex := p.mutex.V.1 }).goto t θ (.execUnlock a))
  | .execUnlock a =>
    some (match s.heap a with
      | none => s.fail
      | some p => { (s.ret t θ p.processID).record (s.hist.execReturn t p.processID a) with
          bmsem := s.bmsem.V.1 })
  | .joinMutex id parent => some (s.lockMutex t θ parent (.joinInc id parent))
  | .joinInc id parent => some (s.onPCB parent fun p =>
      (s.setPCB parent { p with numwait := wrap (p.numwait + 1), mutex := p.mutex.V.1 }).goto
        t θ (.joinWait id))
  | .joinWait id => some (s.through id fun a _ => s.goto t θ (.joinP id a))
  | .joinP id a => some (s.onPCB a fun p =>
      let r := p.joinsem.P t
      (s.setPCB a { p with joinsem := r.1 }).goto t θ (if r.2 then .joinRead id else .joinP id a))
  | .joinRead id => some (s.through id fun a p => s.goto t θ (.joinV id a p.exitcode))
  | .joinV id a exitcode => some (s.onPCB a fun p =>
      ((s.setPCB a { p with exitsem := p.exitsem.V.1 }).goto t θ (.joinRet id exitcode)).record
        (s.hist.release a))
  | .joinRet _ exitcode => some ((s.ret t θ exitcode).record (s.hist.joinReturn t exitcode))
  | .exitMutex parent => some (s.lockMutex t θ parent (.exitDec parent))
  | .exitDec parent => some (s.onPCB parent fun p =>
      let numwait := if p.numwait > 0 then p.numwait - 1 else p.numwait
      (s.setPCB parent { p with numwait, mutex := p.mutex.V.1 }).goto t θ .exitRelease)
  | .exitRelease => some (s.through θ.processID fun a p =>
      (s.setPCB a { p with joinsem := p.joinsem.V.1 }).goto t θ .exitWait)
  | .exitWait => some (s.through θ.processID fun a _ => s.goto t θ (.exitP a))
  | .exitP a => some (s.onPCB a fun p =>
      let r := p.exitsem.P t
      (s.setPCB a { p with exitsem := r.1 }).goto t θ (if r.2 then .remove else .exitP a))
  | .remove => some (s.removeSelf t θ)

inductive Call where
  | exec (c : ExecCall)
  | join (id : Int)
  | exit (exitcode : Int)
  deriving DecidableEq, Repr

inductive Act where
  | call (t : Addr) (c : Call)
  | run (t : Addr)
  deriving DecidableEq, Repr

/-- One thread runs from one semaphore call or table access to the next; `none` where it cannot. -/
def step (s : State) (act : Act) : Option State :=
  if s.status ≠ .running then none else
  match act with
  | .call t c =>
    match s.thr t with
    | none => none
    | some θ =>
      if θ.pc ≠ .user then none else
      match c with
      | .exec c => some (s.goto t θ (.execLock c))
      | .join id => some (s.joinUpdate t θ id)
      | .exit exitcode => some (s.exitUpdate t θ exitcode)
  | .run t =>
    match s.thr t with
    | none => none
    | some θ => if s.asleep t θ.pc then none else s.advance t θ θ.pc

end State
end Nachos.PTable
