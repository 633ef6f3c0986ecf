import Nachos.PTable

namespace Nachos.PTable
open GuardedRun

structure Proc where
  processID : Int
  parentID : Int
  exitcode : Int
  joinsem : Semaphore Addr
  exitsem : Semaphore Addr
  deleted : Bool

/-- `running` stands for everything outside the phases of a process's life that the
others depend on; `joined` is after the release and before the return. -/
inductive Phase where
  | running
  | creating (a : Addr)
  | created (a : Addr)
  | joining (id : Int)
  | waiting (id : Int) (a : Addr)
  | collecting (id : Int)
  | releasing (id : Int) (a : Addr) (exitcode : Int)
  | joined (id : Int) (exitcode : Int)
  | exiting
  | leaving
  | leavingAt (a : Addr)
  | removing
  deriving DecidableEq, Repr

structure Core where
  slot : Int → Option Addr
  proc : Addr → Option Proc
  thr : Addr → Option (Int × Phase)
  next : Addr
  hist : History

/-- The steps on which a run may be made conditional. -/
inductive Label where
  | tau
  | join (t : Addr) (id : Int)
  | remove (t : Addr)

namespace Core

def goto (c : Core) (t : Addr) (pid : Int) (φ : Phase) : Core :=
  { c with thr := Function.update c.thr t (some (pid, φ)) }

def record (c : Core) (h : History) : Core := { c with hist := h }

def setProc (c : Core) (a : Addr) (q : Proc) : Core :=
  { c with proc := Function.update c.proc a (some q) }

inductive Step : Core → Label → Core → Prop
  | silent {c : Core} : Step c .tau c
  | create {c : Core} {t : Addr} {p i e : Int}
      (ht : c.thr t = some (p, .running)) (hi : c.slot i = none) (h0 : 0 ≤ i)
      (h1 : i < maxProcess) :
      Step c .tau { (c.setProc c.next ⟨i, p, e, .new 0, .new 0, false⟩).goto t p
          (.creating c.next) with
        slot := Function.update c.slot i (some c.next)
        next := c.next + 1
        hist := c.hist.create t c.next }
  | fork {c : Core} {t a : Addr} {p : Int} {q : Proc}
      (ht : c.thr t = some (p, .creating a)) (hq : c.proc a = some q) :
      Step c .tau ((c.goto t p (.created a)).goto a q.processID .running)
  | execReturn {c : Core} {t a : Addr} {p : Int} {q : Proc}
      (ht : c.thr t = some (p, .created a)) (hq : c.proc a = some q) :
      Step c .tau ((c.goto t p .running).record (c.hist.execReturn t q.processID a))
  | joinFail {c : Core} {t : Addr} {p id : Int}
      (ht : c.thr t = some (p, .running))
      (hbad : 0 ≤ id → id < maxProcess → ∀ a q, c.slot id = some a → c.proc a = some q →
        q.parentID ≠ p) :
      Step c (.join t id) (c.record (c.hist.joinFail t id))
  | joinCall {c : Core} {t a : Addr} {p id : Int} {q : Proc}
      (ht : c.thr t = some (p, .running)) (hs : c.slot id = some a)
      (hq : c.proc a = some q) (hp : q.parentID = p) :
      Step c (.join t id) ((c.goto t p (.joining id)).record (c.hist.joinCall t id a))
  | joinEval {c : Core} {t a : Addr} {p id : Int}
      (ht : c.thr t = some (p, .joining id)) (hs : c.slot id = some a) :
      Step c .tau (c.goto t p (.waiting id a))
  | joinTest {c : Core} {t a : Addr} {p id : Int} {q : Proc}
      (ht : c.thr t = some (p, .waiting id a)) (hq : c.proc a = some q)
      (hd : q.deleted = false) (hawake : t ∉ q.joinsem.queue) :
      Step c .tau ((c.setProc a { q with joinsem := (q.joinsem.P t).1 }).goto t p
        (if (q.joinsem.P t).2 then .collecting id else .waiting id a))
  | joinRead {c : Core} {t a : Addr} {p id : Int} {q : Proc}
      (ht : c.thr t = some (p, .collecting id)) (hs : c.slot id = some a)
      (hq : c.proc a = some q) :
      Step c .tau (c.goto t p (.releasing id a q.exitcode))
  | release {c : Core} {t a : Addr} {p id ec : Int} {q : Proc}
      (ht : c.thr t = some (p, .releasing id a ec)) (hq : c.proc a = some q)
      (hd : q.deleted = false) :
      Step c .tau (((c.setProc a { q with exitsem := q.exitsem.V.1 }).goto t p
        (.joined id ec)).record (c.hist.release a))
  | joinReturn {c : Core} {t : Addr} {p id ec : Int}
      (ht : c.thr t = some (p, .joined id ec)) :
      Step c .tau ((c.goto t p .running).record (c.hist.joinReturn t ec))
  | exitCall {c : Core} {t a : Addr} {p ec : Int} {q : Proc}
      (ht : c.thr t = some (p, .running)) (hs : c.slot p = some a) (hq : c.proc a = some q)
      (hd : q.deleted = false) :
      Step c .tau (((c.setProc a { q with exitcode := ec }).goto t p .exiting).record
        (c.hist.exitCall t ec))
  | joinRelease {c : Core} {t a : Addr} {p : Int} {q : Proc}
      (ht : c.thr t = some (p, .exiting)) (hs : c.slot p = some a)
      (hq : c.proc a = some q) (hd : q.deleted = false) :
      Step c .tau ((c.setProc a { q with joinsem := q.joinsem.V.1 }).goto t p .leaving)
  | exitEval {c : Core} {t a : Addr} {p : Int}
      (ht : c.thr t = some (p, .leaving)) (hs : c.slot p = some a) :
      Step c .tau (c.goto t p (.leavingAt a))
  | exitTest {c : Core} {t a : Addr} {p : Int} {q : Proc}
      (ht : c.thr t = some (p, .leavingAt a)) (hq : c.proc a = some q)
      (hd : q.deleted = false) (hawake : t ∉ q.exitsem.queue) :
      Step c .tau ((c.setProc a { q with exitsem := (q.exitsem.P t).1 }).goto t p
        (if (q.exitsem.P t).2 then .removing else .leavingAt a))
  | finish {c : Core} {t : Addr} {p : Int} {q : Proc}
      (ht : c.thr t = some (p, .removing)) (hs : c.slot p = some t)
      (hq : c.proc t = some q) :
      Step c (.remove t) { c.setProc t { q with deleted := true } with
        slot := Function.update c.slot p none
        thr := Function.update c.thr t none }
  | removeOther {c : Core} {t a : Addr} {p : Int} {q : Proc}
      (ht : c.thr t = some (p, .removing)) (hs : c.slot p = some a) (hne : a ≠ t)
      (hq : c.proc a = some q) :
      Step c (.remove t) { (c.setProc a { q with deleted := true }).goto t p .running with
        slot := Function.update c.slot p none }
  | removeNone {c : Core} {t : Addr} {p : Int}
      (ht : c.thr t = some (p, .removing)) (hs : c.slot p = none) :
      Step c (.remove t) (c.goto t p .running)

variable {c : Core} {t a : Addr} {p : Int} {q : Proc} {φ : Phase}

theorem goto_self (h : c.thr t = some (p, φ)) : c.goto t p φ = c := by
  simp [goto, ← h]

theorem setProc_self (h : c.proc a = some q) : c.setProc a q = c := by
  simp [setProc, ← h]

end Core

def PCB.core (p : PCB) : Proc :=
  ⟨p.processID, p.parentID, p.exitcode, p.joinsem, p.exitsem, p.deleted⟩

def PC.phase : PC → Phase
  | .start _ | .user | .execLock _ | .execBody _ | .execFail => .running
  | .execMutex a _ | .execFork a _ => .creating a
  | .execUnmutex a | .execUnlock a => .created a
  | .joinMutex id _ | .joinInc id _ | .joinWait id => .joining id
  | .joinP id a => .waiting id a
  | .joinRead id => .collecting id
  | .joinV id a e => .releasing id a e
  | .joinRet id e => .joined id e
  | .exitMutex _ | .exitDec _ | .exitRelease => .exiting
  | .exitWait => .leaving
  | .exitP a => .leavingAt a
  | .remove => .removing

namespace State

def abs (s : State) : Core where
  slot := s.pcb
  proc := fun a => (s.heap a).map PCB.core
  thr := fun t => (s.thr t).map fun θ => (θ.processID, θ.pc.phase)
  next := s.next
  hist := s.hist

variable {s s' : State} {t a : Addr} {θ : Thread} {p : PCB}

@[simp] theorem abs_goto (s : State) (t : Addr) (θ : Thread) (pc : PC) :
    (s.goto t θ pc).abs = s.abs.goto t θ.processID pc.phase := by
  simp only [abs, goto, Core.goto, Core.mk.injEq, true_and, and_true]
  ext1 u
  by_cases hu : u = t
  · subst hu
    simp
  · simp [hu]

@[simp] theorem abs_ret (s : State) (t : Addr) (θ : Thread) (r2 : Int) :
    (s.ret t θ r2).abs = s.abs.goto t θ.processID .running :=
  abs_goto s t { θ with r2 := r2 } .user

@[simp] theorem abs_setPCB (s : State) (a : Addr) (p : PCB) :
    (s.setPCB a p).abs = s.abs.setProc a p.core := by
  simp only [abs, setPCB, Core.setProc, Core.mk.injEq, true_and, and_true]
  ext1 u
  by_cases hu : u = a
  · subst hu
    simp
  · simp [hu]

@[simp] theorem abs_record (s : State) (h : History) : (s.record h).abs = s.abs.record h := rfl

theorem abs_thr (ht : s.thr t = some θ) : s.abs.thr t = some (θ.processID, θ.pc.phase) := by
  simp [abs, ht]

theorem abs_proc (hp : s.heap a = some p) : s.abs.proc a = some p.core := by
  simp [abs, hp]

theorem live_eq_some (h : s.live a = some p) : s.heap a = some p ∧ p.deleted = false := by
  simpa [live, Option.filter_eq_some_iff] using h

/-- A change of the mutex or of `numwait` within a phase is not visible. -/
theorem abs_same (ht : s.thr t = some θ) (hp : s.heap a = some p) {p' : PCB}
    (hcore : p'.core = p.core) {pc : PC} (hpc : pc.phase = θ.pc.phase) :
    ((s.setPCB a p').goto t θ pc).abs = s.abs := by
  rw [abs_goto, abs_setPCB, hcore, hpc, Core.setProc_self (abs_proc hp)]
  exact Core.goto_self (abs_thr ht)

/-- What an action shows of itself. -/
def Shows (s : State) (act : Act) : Label → Prop
  | .tau => True
  | .join t id => act = .call t (.join id)
  | .remove t => act = .run t ∧ ∃ θ, s.thr t = some θ ∧ θ.pc = .remove

/-- A step of the table is a step of its abstraction. -/
def Simulated (s : State) (act : Act) (s' : State) : Prop :=
  ∃ l, Shows s act l ∧ Core.Step s.abs l s'.abs

theorem simulated_tau {act : Act} (h : Core.Step s.abs .tau s'.abs) : Simulated s act s' :=
  ⟨.tau, trivial, h⟩

theorem simulated_silent {act : Act} (h : s'.abs = s.abs) : Simulated s act s' :=
  simulated_tau (h ▸ .silent)

theorem simulated_goto {act : Act} (ht : s.thr t = some θ) {pc : PC}
    (hpc : pc.phase = θ.pc.phase) : Simulated s act (s.goto t θ pc) := by
  refine simulated_silent ?_
  rw [abs_goto, hpc]
  exact Core.goto_self (abs_thr ht)

/-- An access through an empty slot, or to a PCB that is gone, stops the kernel. -/
theorem simulated_through {act : Act} {id : Int} {f : Addr → PCB → State}
    (h : ∀ a p, s.pcb id = some a → s.heap a = some p → p.deleted = false →
      Simulated s act (f a p)) : Simulated s act (s.through id f) := by
  unfold through
  cases hs : s.pcb id with
  | none => exact simulated_silent rfl
  | some a =>
    dsimp only
    cases hl : s.live a with
    | none => exact simulated_silent rfl
    | some p => exact h a p hs (live_eq_some hl).1 (live_eq_some hl).2

theorem simulated_onPCB {act : Act} {f : PCB → State}
    (h : ∀ p, s.heap a = some p → p.deleted = false → Simulated s act (f p)) :
    Simulated s act (s.onPCB a f) := by
  unfold onPCB
  cases hl : s.live a with
  | none => exact simulated_silent rfl
  | some p => exact h p (live_eq_some hl).1 (live_eq_some hl).2

theorem getFreeSlot_spec (h : ¬ s.getFreeSlot < 0) :
    s.pcb s.getFreeSlot = none ∧ 0 ≤ s.getFreeSlot ∧ s.getFreeSlot < maxProcess := by
  unfold getFreeSlot at h ⊢
  cases hf : (List.range 10).find? fun i : ℕ => (s.pcb (i : Int)).isNone with
  | none => simp [hf] at h
  | some i =>
    obtain ⟨hi, hmem, -⟩ := List.find?_range_eq_some.mp hf
    have := List.mem_range.mp hmem
    refine ⟨by simpa using hi, by simp, ?_⟩
    simp only [maxProcess]
    omega

theorem simulated_execBody {act : Act} (ht : s.thr t = some θ) {c : ExecCall}
    (hpc : θ.pc = .execBody c) : Simulated s act (s.execBody t θ c) := by
  have hrun : s.abs.thr t = some (θ.processID, .running) := by
    rw [abs_thr ht, hpc]
    rfl
  have hfail : Simulated s act (s.goto t θ .execFail) := simulated_goto ht (by rw [hpc]; rfl)
  -- both calls put a new PCB into the free slot, and differ in the function it is started with
  have hplace : ∀ (name : Name) (f : Starter), ¬ s.getFreeSlot < 0 →
      Simulated s act { (s.setPCB s.next (newPCB s.getFreeSlot θ.processID name
          (s.fresh s.next))).goto t θ (.execMutex s.next f) with
        pcb := Function.update s.pcb s.getFreeSlot (some s.next)
        next := s.next + 1
        hist := s.hist.create t s.next } := by
    intro name f hslot
    obtain ⟨hnone, h0, h1⟩ := getFreeSlot_spec hslot
    have habs := (abs_goto (s.setPCB s.next (newPCB s.getFreeSlot θ.processID name
      (s.fresh s.next))) t θ (.execMutex s.next f)).trans
      (congrArg (fun c : Core => c.goto t θ.processID (.creating s.next)) (abs_setPCB ..))
    have hstep := Core.Step.create (e := (s.fresh s.next).1) hrun hnone h0 h1
    refine simulated_tau ?_
    convert hstep using 1
    exact congrArg (fun c : Core => { c with
      slot := Function.update s.pcb s.getFreeSlot (some s.next)
      next := s.next + 1
      hist := s.hist.create t s.next }) habs
  unfold execBody
  cases c with
  | execUpdate name =>
    cases name with
    | none => exact hfail
    | some name =>
      dsimp only
      split_ifs with hname hslot
      · exact hfail
      · exact hfail
      · exact hplace name .startProcess1 hslot
  | execV argv0 =>
    dsimp only
    split_ifs with hslot
    · exact hfail
    · exact hplace argv0 .startProcess2 hslot

theorem simulated_lockMutex {act : Act} (ht : s.thr t = some θ) {next : PC}
    (hnext : next.phase = θ.pc.phase) : Simulated s act (s.lockMutex t θ a next) := by
  refine simulated_onPCB fun p hp _ => simulated_silent (abs_same ht hp ?_ ?_)
  · rfl
  · split_ifs
    · exact hnext
    · rfl

theorem simulated_joinUpdate (ht : s.thr t = some θ) (hpc : θ.pc = .user) (id : Int) :
    Simulated s (.call t (.join id)) (s.joinUpdate t θ id) := by
  have hrun : s.abs.thr t = some (θ.processID, .running) := by
    rw [abs_thr ht, hpc]
    rfl
  have hrefuse : (0 ≤ id → id < maxProcess → ∀ a q, s.abs.slot id = some a →
      s.abs.proc a = some q → q.parentID ≠ θ.processID) →
      Simulated s (.call t (.join id)) ((s.ret t θ (-1)).record (s.hist.joinFail t id)) := by
    intro hbad
    refine ⟨.join t id, rfl, ?_⟩
    rw [abs_record, abs_ret, Core.goto_self hrun]
    exact .joinFail hrun hbad
  unfold joinUpdate
  dsimp only
  split_ifs with hid
  · exact hrefuse fun h0 h1 => absurd hid (by omega)
  cases hs : s.pcb id with
  | none => exact hrefuse fun _ _ a q ha => by simp [abs, hs] at ha
  | some a =>
    dsimp only
    cases hp : s.heap a with
    | none => exact simulated_silent rfl
    | some p =>
      dsimp only
      split_ifs with hparent
      · refine hrefuse fun _ _ a' q ha hq => ?_
        obtain rfl : a = a' := Option.some.inj (hs.symm.trans ha)
        obtain rfl : p.core = q := Option.some.inj ((abs_proc hp).symm.trans hq)
        exact hparent
      · cases hpar : s.pcb p.parentID with
        | none => exact simulated_silent rfl
        | some parent =>
          refine ⟨.join t id, rfl, ?_⟩
          rw [abs_record, abs_goto]
          exact .joinCall hrun hs (abs_proc hp) (not_ne_iff.mp hparent)

theorem simulated_exitUpdate {act : Act} (ht : s.thr t = some θ) (hpc : θ.pc = .user)
    (exitcode : Int) : Simulated s act (s.exitUpdate t θ exitcode) := by
  have hrun : s.abs.thr t = some (θ.processID, .running) := by
    rw [abs_thr ht, hpc]
    rfl
  unfold exitUpdate
  split_ifs
  · exact simulated_silent rfl
  · refine simulated_through fun a p hs hp hd => ?_
    cases hpar : s.pcb p.parentID with
    | none => exact simulated_silent rfl
    | some parent =>
      refine simulated_tau ?_
      rw [abs_record, abs_goto, abs_setPCB]
      exact .exitCall hrun hs (abs_proc hp) hd

theorem simulated_removeSelf (ht : s.thr t = some θ) (hpc : θ.pc = .remove) :
    Simulated s (.run t) (s.removeSelf t θ) := by
  have hrem : s.abs.thr t = some (θ.processID, .removing) := by
    rw [abs_thr ht, hpc]
    rfl
  have hshow : Shows s (.run t) (.remove t) := ⟨rfl, θ, ht, hpc⟩
  unfold removeSelf
  cases hs : s.pcb θ.processID with
  | none =>
    refine ⟨.remove t, hshow, ?_⟩
    rw [abs_ret]
    exact .removeNone hrem hs
  | some a =>
    dsimp only
    cases hp : s.heap a with
    | none => exact simulated_silent rfl
    | some p =>
      dsimp only
      -- `~PCB` ends the thread with the pid of the caller; the `ASSERT` of `Finish` is a failure
      -- here
      split_ifs with hpid hat
      · subst hat
        refine ⟨.remove a, hshow, ?_⟩
        convert Core.Step.finish hrem hs (abs_proc hp) using 1
        have hthr : (fun u => (Function.update s.thr a none u).map
            fun θ => (θ.processID, θ.pc.phase)) = Function.update s.abs.thr a none := by
          ext1 u
          by_cases hu : u = a
          · subst hu
            simp
          · simp [abs, hu]
        have hproc := congrArg Core.proc (abs_setPCB s a { p with deleted := true })
        exact congrArg₂ (fun f g => Core.mk (Function.update s.pcb θ.processID none) f g s.next
          s.hist) hproc hthr
      · exact simulated_silent rfl
      · refine ⟨.remove t, hshow, ?_⟩
        by_cases hat : a = t
        · subst hat
          simp [ht] at hpid
        · convert Core.Step.removeOther hrem hs hat (abs_proc hp) using 1
          exact congrArg (fun c : Core => { c with
            slot := Function.update s.pcb θ.processID none })
            ((abs_ret (s.setPCB a { p with deleted := true }) t θ 0).trans
              (congrArg (fun c : Core => c.goto t θ.processID .running) (abs_setPCB ..)))

theorem simulated_advance (ht : s.thr t = some θ) (hawake : s.asleep t θ.pc = false)
    (hs : s.advance t θ θ.pc = some s') : Simulated s (.run t) s' := by
  -- one case per statement; the mutexes, `bmsem` and `numwait` do not show in the abstract table
  have hthr := abs_thr ht
  cases hpc : θ.pc with
  | user => simp [hpc, advance] at hs
  | start f =>
    rw [hpc] at hs
    cases f with
    | startProcess1 =>
      cases hs
      exact simulated_through fun _ _ _ _ _ => simulated_goto ht (by rw [hpc]; rfl)
    | startProcess2 =>
      cases hs
      exact simulated_goto ht (by rw [hpc]; rfl)
  | execLock c =>
    rw [hpc] at hs
    cases hs
    refine simulated_silent ?_
    have hgoto := abs_goto s t θ (if (s.bmsem.P t).2 = true then .execBody c else .execLock c)
    have hphase : (if (s.bmsem.P t).2 = true then PC.execBody c else .execLock c).phase =
        θ.pc.phase := by
      rw [hpc]
      split_ifs <;> rfl
    rw [hphase] at hgoto
    exact hgoto.trans (Core.goto_self hthr)
  | execBody c =>
    rw [hpc] at hs
    cases hs
    exact simulated_execBody ht hpc
  | execFail =>
    rw [hpc] at hs
    cases hs
    refine simulated_silent ?_
    rw [hpc] at hthr
    exact (abs_ret s t θ (-1)).trans (Core.goto_self hthr)
  | execMutex a f =>
    rw [hpc] at hs
    cases hs
    exact simulated_lockMutex ht (by rw [hpc]; rfl)
  | execFork a f =>
    rw [hpc] at hs hthr
    cases hs
    refine simulated_onPCB fun p hp _ => simulated_tau ?_
    convert Core.Step.fork hthr (abs_proc hp) using 1
    exact (abs_goto (s.goto t θ (.execUnmutex a)) a ⟨p.processID, p.filename, .start f, 0⟩
      (.start f)).trans (congrArg (fun c : Core => c.goto a p.processID .running) (abs_goto ..))
  | execUnmutex a =>
    rw [hpc] at hs
    cases hs
    refine simulated_onPCB fun p hp _ => simulated_silent (abs_same ht hp ?_ ?_)
    · rfl
    · rw [hpc]
      rfl
  | execUnlock a =>
    rw [hpc] at hs hthr
    cases hs
    cases hp : s.heap a with
    | none => exact simulated_silent rfl
    | some p =>
      refine simulated_tau ?_
      convert Core.Step.execReturn hthr (abs_proc hp) using 1
      exact congrArg (fun c : Core => c.record (s.hist.execReturn t p.processID a))
        (abs_ret s t θ p.processID)
  | joinMutex id parent =>
    rw [hpc] at hs
    cases hs
    exact simulated_lockMutex ht (by rw [hpc]; rfl)
  | joinInc id parent =>
    rw [hpc] at hs
    cases hs
    refine simulated_onPCB fun p hp _ => simulated_silent (abs_same ht hp ?_ ?_)
    · rfl
    · rw [hpc]
      rfl
  | joinWait id =>
    rw [hpc] at hs hthr
    cases hs
    refine simulated_through fun a p hslot _ _ => simulated_tau ?_
    rw [abs_goto]
    exact .joinEval hthr hslot
  | joinP id a =>
    rw [hpc] at hs hthr hawake
    cases hs
    refine simulated_onPCB fun p hp hd => simulated_tau ?_
    -- a thread that is asleep is not run
    have hq : t ∉ p.joinsem.queue := by simpa [asleep, hp] using hawake
    rw [abs_goto, abs_setPCB, apply_ite PC.phase]
    exact .joinTest hthr (abs_proc hp) hd hq
  | joinRead id =>
    rw [hpc] at hs hthr
    cases hs
    refine simulated_through fun a p hslot hp _ => simulated_tau ?_
    rw [abs_goto]
    exact .joinRead hthr hslot (abs_proc hp)
  | joinV id a e =>
    rw [hpc] at hs hthr
    cases hs
    refine simulated_onPCB fun p hp hd => simulated_tau ?_
    rw [abs_record, abs_goto, abs_setPCB]
    exact .release hthr (abs_proc hp) hd
  | joinRet id e =>
    rw [hpc] at hs hthr
    cases hs
    refine simulated_tau ?_
    rw [abs_record, abs_ret]
    exact .joinReturn hthr
  | exitMutex parent =>
    rw [hpc] at hs
    cases hs
    exact simulated_lockMutex ht (by rw [hpc]; rfl)
  | exitDec parent =>
    rw [hpc] at hs
    cases hs
    refine simulated_onPCB fun p hp _ => simulated_silent (abs_same ht hp ?_ ?_)
    · rfl
    · rw [hpc]
      rfl
  | exitRelease =>
    rw [hpc] at hs hthr
    cases hs
    refine simulated_through fun a p hslot hp hd => simulated_tau ?_
    rw [abs_goto, abs_setPCB]
    exact .joinRelease hthr hslot (abs_proc hp) hd
  | exitWait =>
    rw [hpc] at hs hthr
    cases hs
    refine simulated_through fun a p hslot _ _ => simulated_tau ?_
    rw [abs_goto]
    exact .exitEval hthr hslot
  | exitP a =>
    rw [hpc] at hs hthr hawake
    cases hs
    refine simulated_onPCB fun p hp hd => simulated_tau ?_
    have hq : t ∉ p.exitsem.queue := by simpa [asleep, hp] using hawake
    rw [abs_goto, abs_setPCB, apply_ite PC.phase]
    exact .exitTest hthr (abs_proc hp) hd hq
  | remove =>
    rw [hpc] at hs
    cases hs
    exact simulated_removeSelf ht hpc

theorem simulated_step {act : Act} (hs : step s act = some s') : Simulated s act s' := by
  unfold step at hs
  split_ifs at hs
  cases act with
  | call t c =>
    dsimp only at hs
    cases ht : s.thr t with
    | none => simp [ht] at hs
    | some θ =>
      simp only [ht] at hs
      split_ifs at hs with hpc
      have hpc := not_ne_iff.mp hpc
      cases c with
      | exec c =>
        cases hs
        exact simulated_goto ht (by rw [hpc]; rfl)
      | join id =>
        cases hs
        exact simulated_joinUpdate ht hpc id
      | exit exitcode =>
        cases hs
        exact simulated_exitUpdate ht hpc exitcode
  | run t =>
    dsimp only at hs
    cases ht : s.thr t with
    | none => simp [ht] at hs
    | some θ =>
      simp only [ht] at hs
      split_ifs at hs with hawake
      exact simulated_advance ht (by simpa using hawake) hs

end State
end Nachos.PTable
