import Nachos.Machine
import Nachos.Semaphore

namespace Nachos.Scheduler
open GuardedRun

abbrev Addr := ℕ

inductive ThreadStatus where
  | justCreated | running | ready | blocked
  deriving DecidableEq, Repr

/-- How far a thread has come: not forked, forked and to be entered at `ThreadRoot`,
in the function it was forked with, or in a call that gives up the processor. -/
inductive PC where
  | created
  | threadRoot
  | body
  | inYield
  | inP (σ : Addr)
  | finishing
  deriving DecidableEq, Repr

structure Space where
  pageTable : Option Addr
  numPages : ℕ
  deriving DecidableEq, Repr

structure Thread where
  status : ThreadStatus
  processID : Int
  pc : PC
  userRegisters : ℕ → Int
  space : Option Space

structure Cpu where
  registers : ℕ → Int
  pageTable : Option Addr
  pageTableSize : ℕ

/-- What stops the kernel: a failed `ASSERT`, a deleted object, a line not to be reached. -/
inductive Fault where
  | isInList
  | toBeDestroyed
  | notCurrent
  | deletesCurrent
  | dangling
  | notReached
  deriving DecidableEq, Repr

/-- `running`: the current thread runs with interrupts on.  `idling`: it is in the loop
of `Sleep`.  `switched`: `SWITCH` has just given it the processor.  `testing`: it is
back in `P`, about to test `value` again.  With interrupts off nothing comes between two
statements, so that an action runs from one such point to the next. -/
inductive Mode where
  | running | idling | switched | testing
  deriving DecidableEq, Repr

/-- `pcb` gives the thread of the process in a slot of the process table. -/
structure State where
  currentThread : Addr
  readyList : List Addr
  toBeDestroyed : Option Addr
  threads : Addr → Option Thread
  sems : Addr → Option (Semaphore Addr)
  pcb : Int → Option Addr
  cpu : Cpu
  mode : Mode
  failed : Option Fault

def Thread.saveUserState (θ : Thread) (c : Cpu) : Thread :=
  { θ with userRegisters := fun i => if i < numTotalRegs then c.registers i else θ.userRegisters i }

def Cpu.restore (c : Cpu) (θ : Thread) : Cpu :=
  match θ.space with
  | none => c
  | some sp =>
    { registers := fun i => if i < numTotalRegs then θ.userRegisters i else c.registers i
      pageTable := sp.pageTable
      pageTableSize := sp.numPages }

def Space.initRegisters (sp : Space) (r : ℕ → Int) : ℕ → Int :=
  Function.update (Function.update (Function.update
    (fun i => if i < numTotalRegs then 0 else r i) pcReg 0) nextPCReg 4)
    stackReg (sp.numPages * pageSize - 16 : Int)

/-- The machine's own `DelayedLoad`, on the registers. -/
def Cpu.delayedLoad (c : Cpu) (nextReg nextValue : Int) : Cpu :=
  let m : Machine := ⟨fun _ => 0, c.registers, none, none, 0⟩
  { c with registers := (m.delayedLoad nextReg nextValue).registers }

def append (l : List Addr) (item : Addr) : Except Fault (List Addr) :=
  if item ∈ l then .error .isInList else .ok (l ++ [item])

namespace State

def thread (s : State) (t : Addr) : Except Fault Thread :=
  match s.threads t with
  | none => .error .dangling
  | some θ => .ok θ

def setThread (s : State) (t : Addr) (θ : Thread) : State :=
  { s with threads := Function.update s.threads t (some θ) }

def setSem (s : State) (σ : Addr) (S : Semaphore Addr) : State :=
  { s with sems := Function.update s.sems σ (some S) }

def readyToRun (s : State) (t : Addr) : Except Fault State := do
  let θ ← s.thread t
  let l ← append s.readyList t
  return { s.setThread t { θ with status := .ready } with readyList := l }

def findNextToRun (s : State) : Option (Addr × State) :=
  match s.readyList with
  | [] => none
  | t :: rest => some (t, { s with readyList := rest })

def run (s : State) (nextThread : Addr) (finishing : Bool) : Except Fault State := do
  let oldThread := s.currentThread
  if finishing && s.toBeDestroyed.isSome then throw .toBeDestroyed
  let θ ← s.thread oldThread
  let s' := s.setThread oldThread (if θ.space.isSome then θ.saveUserState s.cpu else θ)
  let ν ← s'.thread nextThread
  return { s'.setThread nextThread { ν with status := .running } with
    currentThread := nextThread
    toBeDestroyed := if finishing then some oldThread else s.toBeDestroyed
    mode := .switched }

def checkToBeDestroyed (s : State) : Except Fault State :=
  match s.toBeDestroyed with
  | none => .ok s
  | some t =>
    if t = s.currentThread then .error .deletesCurrent
    else
      match s.threads t with
      | none => .error .dangling
      | some _ =>
        .ok { s with threads := Function.update s.threads t none, toBeDestroyed := none }

/-- The loop in `Sleep`: without a thread to run, `Idle` waits for an interrupt. -/
def sleepLoop (s : State) (finishing : Bool) : Except Fault State :=
  match s.findNextToRun with
  | none => .ok { s with mode := .idling }
  | some (nextThread, s') => s'.run nextThread finishing

def sleep (s : State) (finishing : Bool) : Except Fault State := do
  let θ ← s.thread s.currentThread
  (s.setThread s.currentThread { θ with status := .blocked }).sleepLoop finishing

def fork (s : State) (t : Addr) : Except Fault State := do
  let θ ← s.thread t
  (s.setThread t { θ with pc := .threadRoot }).readyToRun t

def yield (s : State) : Except Fault State :=
  match s.findNextToRun with
  | none => .ok s
  | some (nextThread, s') => do
    let θ ← s'.thread s'.currentThread
    let s'' ← (s'.setThread s'.currentThread { θ with pc := .inYield }).readyToRun
      s'.currentThread
    s''.run nextThread false

def finish (s : State) (t : Addr) : Except Fault State :=
  if t ≠ s.currentThread then .error .notCurrent
  else do
    let θ ← s.thread t
    (s.setThread t { θ with pc := .finishing }).sleep true

/-- What the thread that `SWITCH` has just given the processor does first: `Begin` for a
new thread, the rest of `Run` for one that comes back. -/
def resume (s : State) : Except Fault State := do
  let θ ← s.thread s.currentThread
  let s' ← s.checkToBeDestroyed
  match θ.pc with
  | .threadRoot => return { s'.setThread s'.currentThread { θ with pc := .body } with
      mode := .running }
  | .inYield => return { s'.setThread s'.currentThread { θ with pc := .body } with
      cpu := s'.cpu.restore θ, mode := .running }
  | .inP _ => return { s' with cpu := s'.cpu.restore θ, mode := .testing }
  | _ => throw .notReached

/-- One test of `while (value == 0)` in `P` by the current thread. -/
def testP (s : State) (σ : Addr) : Except Fault State :=
  match s.sems σ with
  | none => .error .dangling
  | some S => do
    let t := s.currentThread
    let θ ← s.thread t
    let r := S.P t
    if r.2 then
      return { (s.setThread t { θ with pc := .body }).setSem σ r.1 with mode := .running }
    else
      let queue ← append S.queue t
      ((s.setThread t { θ with pc := .inP σ }).setSem σ { r.1 with queue }).sleep false

def callV (s : State) (σ : Addr) : Except Fault State :=
  match s.sems σ with
  | none => .error .dangling
  | some S =>
    let r := S.V
    match r.2 with
    | none => .ok (s.setSem σ r.1)
    | some t => (s.setSem σ r.1).readyToRun t

def execute (s : State) (sp : Space) : Except Fault State := do
  let θ ← s.thread s.currentThread
  return { s.setThread s.currentThread { θ with space := some sp } with
    cpu := ⟨sp.initRegisters s.cpu.registers, sp.pageTable, sp.numPages⟩ }

/-- `PTable::Remove` and `~PCB`: a thread with the process id of the current one loses
its space and finishes. -/
def remove (s : State) (id : Int) : Except Fault State :=
  match s.pcb id with
  | none => .ok s
  | some u => do
    let s' := { s with pcb := Function.update s.pcb id none }
    let υ ← s'.thread u
    let θ ← s'.thread s'.currentThread
    if θ.processID = υ.processID then
      (s'.setThread u { υ with space := none }).finish u
    else return s'

/-- `newThread` leaves `processID` and the saved registers as the host's heap had them;
`exec` is the same with the PCB that `PTable::ExecUpdate` and `ExecV` put in a slot.
`instruction` is any instruction of the user program or any register write of a system
call it made. -/
inductive Act where
  | newThread (t : Addr) (processID : Int) (junk : ℕ → Int)
  | exec (id : Int) (t : Addr) (junk : ℕ → Int)
  | fork (t : Addr)
  | yield
  | newSem (σ : Addr) (initialValue : Int)
  | deleteSem (σ : Addr)
  | callP (σ : Addr)
  | callV (σ : Addr)
  | finish
  | execute (sp : Space)
  | instruction (registers : ℕ → Int)
  | exit
  | interrupt
  | handlerV (σ : Addr)
  | wake
  | resume
  | retest

def newThread (s : State) (t : Addr) (processID : Int) (junk : ℕ → Int) : State :=
  s.setThread t ⟨.justCreated, processID, .created, junk, none⟩

/-- An action the current thread `θ` takes with interrupts on.  `StartProcess` and
`main` are the only callers of `Execute`, and they do not return to `ThreadRoot`. -/
def act (s : State) (θ : Thread) : Act → Option (Except Fault State)
  | .newThread t processID junk =>
    if s.threads t = none then some (.ok (s.newThread t processID junk)) else none
  | .exec id t junk =>
    if s.threads t = none ∧ s.pcb id = none then
      some (.ok { s.newThread t id junk with pcb := Function.update s.pcb id (some t) })
    else none
  | .fork t =>
    if (s.threads t).any fun φ => φ.pc == .created then some (s.fork t) else none
  | .yield => some s.yield
  | .newSem σ initialValue =>
    if s.sems σ = none then some (.ok (s.setSem σ (.new initialValue))) else none
  | .deleteSem σ =>
    if s.sems σ = none then none
    else some (.ok { s with sems := Function.update s.sems σ none })
  | .callP σ => if s.sems σ = none then none else some (s.testP σ)
  | .callV σ => if s.sems σ = none then none else some (s.callV σ)
  | .finish =>
    if s.pcb θ.processID = some s.currentThread then none else some (s.finish s.currentThread)
  | .execute sp =>
    if s.pcb θ.processID = some s.currentThread then some (s.execute sp) else none
  | .instruction registers =>
    if θ.space.isSome then some (.ok { s with cpu := { s.cpu with registers := registers } })
    else none
  | .exit =>
    if θ.space.isSome ∧ θ.processID ≠ 0 then some (s.remove θ.processID) else none
  | _ => none

/-- What may happen with interrupts on or in `Idle`: a handler's `DelayedLoad`, and its
calls of `V`. -/
def interruptAct (s : State) : Act → Option (Except Fault State)
  | .interrupt => some (.ok { s with cpu := s.cpu.delayedLoad 0 0 })
  | .handlerV σ => if s.sems σ = none then none else some (s.callV σ)
  | _ => none

def next (s : State) (θ : Thread) (a : Act) : Option (Except Fault State) :=
  match s.mode with
  | .running => (s.interruptAct a).or (s.act θ a)
  | .idling =>
    match a with
    | .wake => some (s.sleepLoop (θ.pc == .finishing))
    | a => s.interruptAct a
  | .switched =>
    match a with
    | .resume => some s.resume
    | _ => none
  | .testing =>
    match a, θ.pc with
    | .retest, .inP σ => some (s.testP σ)
    | _, _ => none

/-- A fault stops the kernel where it is. -/
def step (s : State) (a : Act) : Option State :=
  if s.failed.isSome then none
  else
    match s.threads s.currentThread with
    | none => none
    | some θ =>
      (s.next θ a).map fun r =>
        match r with
        | .ok s' => s'
        | .error f => { s with failed := some f }

/-- After `Kernel::Initialize`: the main thread is the thread of process 0. -/
def init (main : Addr) (pageTableSize : ℕ) (junk : ℕ → Int) : State where
  currentThread := main
  readyList := []
  toBeDestroyed := none
  threads := fun t => if t = main then some ⟨.running, 0, .body, junk, none⟩ else none
  sems := fun _ => none
  pcb := fun i => if i = 0 then some main else none
  cpu := ⟨fun _ => 0, none, pageTableSize⟩
  mode := .running
  failed := none

/-- No semaphore is deleted while a thread is inside its `P`. -/
def NotWaitedOn (s : State) (a : Act) : Prop :=
  ∀ σ, a = .deleteSem σ → ∀ t θ, s.threads t = some θ → θ.pc ≠ .inP σ

end State
end Nachos.Scheduler
