import Nachos.UserCopy

namespace Nachos
open TwosComplement Programs

/-- The end of an instruction that is not a branch. -/
def Machine.ordinary (m : Machine) : Machine := m.advance (wrap (m.registers nextPCReg + 4))

def Machine.counters (m : Machine) : Int × Int := (m.registers pcReg, m.registers nextPCReg)

namespace Sys
variable {κ α : Type}

/-- `PCReg` and `NextPCReg`. -/
def counters (k : Kernel κ) : Int × Int := k.machine.counters

/-- What `IncreasePC` makes of the program counters. -/
def increased (c : Int × Int) : Int × Int := (wrap (c.1 + 4), wrap (wrap (c.1 + 4) + 4))

/-- The program returns with the program counters increased once. -/
def Advances (f : Sys κ α) : Prop := Does f fun k k' => counters k' = increased (counters k)

theorem keeps_counters {f : Sys κ α} (h : Keeps regs f) : Keeps counters f :=
  h.comp fun r => (r pcReg, r nextPCReg)

theorem advances_increasePC : Advances (increasePC : Sys κ Unit) := by
  intro k a k' h
  cases h
  rfl

theorem advances_bind {f : Sys κ α} {g : α → Sys κ Unit} (hf : Keeps counters f)
    (hg : ∀ a, Advances (g a)) : Advances (f >>= g) :=
  does_bind (T := fun c k' => counters k' = increased c) hf hg

theorem advances_then {f : Sys κ α} {g : α → Sys κ Unit} (hf : Keeps regs f)
    (hg : ∀ a, Advances (g a)) : Advances (f >>= g) := advances_bind (keeps_counters hf) hg

/-- A call whose first part leaves all but the memory alone. -/
theorem advances_after {f : Sys κ α} {g : α → Sys κ Unit} (hf : Keeps rest f)
    (hg : ∀ a, Advances (g a)) : Advances (f >>= g) := advances_then (keeps_regs hf) hg

theorem advances_ret (v : Int) : Advances (ret v : Sys κ Unit) := by
  intro k a k' h
  cases h
  rfl

theorem keeps_writeResult {v : Int} : Keeps counters (writeRegister 2 v : Sys κ Unit) := by
  intro k a k' h
  cases h
  rfl

theorem keeps_newPointers (size : Int) : Keeps rest (newPointers size : Sys κ Unit) :=
  does_ite (fun _ => does_throw _) fun _ => keeps_pure _

theorem keeps_regs_modify {f : Kernel κ → Kernel κ} (hf : ∀ k, (f k).machine = k.machine) :
    Keeps regs (modify f : Sys κ Unit) :=
  keeps_modify fun k => congrArg Machine.registers (hf k)

theorem keeps_setHost (h : Host) : Keeps regs (setHost h : Sys κ Unit) :=
  keeps_regs_modify fun _ => rfl

theorem keeps_setFile (i : Fin 20) (f : Option OpenFile) :
    Keeps regs (setFile i f : Sys κ Unit) := keeps_regs_modify fun _ => rfl

theorem keeps_setName (i : Fin 20) (name : Name) : Keeps regs (setName i name : Sys κ Unit) :=
  keeps_regs_modify fun _ => rfl

theorem keeps_openfileAt (i : Int) :
    Keeps rest (openfileAt i : Sys κ (Option (Fin 20 × OpenFile))) := by
  intro k a k' h
  unfold openfileAt at h
  split at h <;> cases h
  rfl

theorem keeps_onFile (i : Fin 20) (m : OpenFile → Host → Except Stop (α × OpenFile × Host)) :
    Keeps regs (onFile i m : Sys κ α) := by
  intro k a k' h
  unfold onFile at h
  split at h
  · cases h
  · split at h <;> cases h
    rfl

theorem keeps_service (f : κ → Except Stop (α × κ)) : Keeps rest (service f : Sys κ α) := by
  intro k a k' h
  unfold service at h
  split at h <;> cases h
  rfl

theorem keeps_read (env : Env) (i : Fin 20) (buf : Buffer) (numBytes : Int) :
    Keeps regs (read env i buf numBytes : Sys κ (Int × Buffer)) := by
  refine keeps_bind (keeps_onFile _ _) fun r => ?_
  exact keeps_bind (keeps_regs (keeps_setOverrun _)) fun _ => keeps_pure _

theorem keeps_write (env : Env) (i : Fin 20) (buf : Buffer) (numBytes : Int) :
    Keeps regs (write env i buf numBytes : Sys κ Int) := by
  refine keeps_bind (keeps_onFile _ _) fun r => ?_
  exact keeps_bind (keeps_regs (keeps_setOverrun _)) fun _ => keeps_pure _

theorem advances_scAdd : Advances (scAdd : Sys κ Unit) := by
  refine advances_after (keeps_readRegister 4) fun _ => ?_
  exact advances_after (keeps_readRegister 5) fun _ => advances_ret _

theorem advances_scCreate (env : Env) : Advances (scCreate env : Sys κ Unit) := by
  refine advances_after (keeps_readRegister 4) fun virtAddr => ?_
  refine advances_after (keeps_user2System _ _ _) fun filename => ?_
  refine does_ite (fun _ => advances_ret _) fun _ => ?_
  refine advances_then keeps_get fun k => ?_
  refine advances_then (keeps_lift _) fun h => ?_
  exact advances_then (keeps_setHost h) fun _ => advances_ret _

theorem advances_scOpen (env : Env) : Advances (scOpen env : Sys κ Unit) := by
  refine advances_after (keeps_readRegister 4) fun virtAddr => ?_
  refine advances_after (keeps_readRegister 5) fun type => ?_
  refine advances_after (keeps_user2System _ _ _) fun filename => ?_
  refine advances_then keeps_get fun k => ?_
  cases k.fileSystem.isFull with
  | none => exact advances_ret _
  | some tempt =>
    refine does_ite (fun _ => advances_ret _) fun _ => ?_
    refine does_ite (fun _ => ?_) fun _ => advances_ret _
    refine advances_then keeps_get fun k => ?_
    refine advances_then (keeps_setHost _) fun _ => ?_
    refine advances_then (keeps_setFile _ _) fun _ => ?_
    refine does_ite (fun _ => ?_) fun _ => advances_ret _
    exact advances_then (keeps_setName _ _) fun _ => advances_ret _

theorem advances_scClose : Advances (scClose : Sys κ Unit) := by
  refine advances_after (keeps_readRegister 4) fun id => ?_
  refine does_ite (fun _ => advances_ret _) fun _ => ?_
  refine advances_after (keeps_openfileAt _) fun r => ?_
  cases r with
  | none => exact advances_ret _
  | some p =>
    refine advances_bind keeps_writeResult fun _ => ?_
    refine advances_then (keeps_setName _ _) fun _ => ?_
    refine advances_then keeps_get fun k => ?_
    refine advances_then (keeps_lift _) fun h => ?_
    refine advances_then (keeps_setHost _) fun _ => ?_
    exact advances_then (keeps_setFile _ _) fun _ => advances_increasePC

theorem advances_readSocket (env : Env) (slot : Fin 20) (virtAddr : Int) (buf : Buffer)
    (charcount : Int) : Advances (readSocket env slot virtAddr buf charcount : Sys κ Unit) := by
  refine advances_then (keeps_read _ _ _ _) fun r => ?_
  refine does_ite (fun _ => ?_) fun _ => advances_ret _
  exact advances_after (keeps_system2User _ _ _) fun _ => advances_ret _

theorem advances_writeSocket (env : Env) (slot : Fin 20) (buf : Buffer) (charcount : Int) :
    Advances (writeSocket env slot buf charcount : Sys κ Unit) := by
  refine advances_then (keeps_write _ _ _ _) fun r => ?_
  exact does_ite (fun _ => advances_ret _) fun _ => advances_ret _

theorem advances_scRead (env : Env) : Advances (scRead env : Sys κ Unit) := by
  refine advances_after (keeps_readRegister 4) fun virtAddr => ?_
  refine advances_after (keeps_readRegister 5) fun charcount => ?_
  refine advances_after (keeps_readRegister 6) fun id => ?_
  refine does_ite (fun _ => advances_ret _) fun _ => ?_
  refine advances_after (keeps_openfileAt _) fun r => ?_
  cases r with
  | none => exact advances_ret _
  | some p =>
    refine advances_then (keeps_onFile _ _) fun oldPos => ?_
    refine advances_after (keeps_user2System _ _ _) fun buf => ?_
    refine does_ite (fun _ => ?_) fun _ => does_ite (fun _ => ?_) fun _ =>
      does_ite (fun _ => advances_readSocket _ _ _ _ _) fun _ => advances_ret _
    · refine advances_after (keeps_readLine _) fun line => ?_
      refine advances_after (keeps_setOverrun _) fun _ => ?_
      exact advances_after (keeps_system2User _ _ _) fun _ => advances_ret _
    · refine advances_then (keeps_read _ _ _ _) fun r => ?_
      refine does_ite (fun _ => ?_) fun _ => advances_ret _
      refine advances_then (keeps_onFile _ _) fun newPos => ?_
      exact advances_after (keeps_system2User _ _ _) fun _ => advances_ret _

theorem advances_scWrite (env : Env) : Advances (scWrite env : Sys κ Unit) := by
  refine advances_after (keeps_readRegister 4) fun virtAddr => ?_
  refine advances_after (keeps_readRegister 5) fun charcount => ?_
  refine advances_after (keeps_readRegister 6) fun id => ?_
  refine does_ite (fun _ => advances_ret _) fun _ => ?_
  refine advances_after (keeps_openfileAt _) fun r => ?_
  cases r with
  | none => exact advances_ret _
  | some p =>
    refine does_ite (fun _ => advances_ret _) fun _ => ?_
    refine advances_then (keeps_onFile _ _) fun oldPos => ?_
    refine advances_after (keeps_user2System _ _ _) fun buf => ?_
    refine does_ite (fun _ => ?_) fun _ => does_ite (fun _ => ?_) fun _ =>
      does_ite (fun _ => advances_writeSocket _ _ _ _) fun _ => advances_ret _
    · refine advances_after (keeps_setOverrun _) fun _ => ?_
      exact advances_after (keeps_putString _ _ _ _) fun _ => advances_ret _
    · refine advances_then (keeps_write _ _ _ _) fun r => ?_
      refine does_ite (fun _ => ?_) fun _ => advances_ret _
      exact advances_then (keeps_onFile _ _) fun newPos => advances_ret _

theorem advances_scSeek : Advances (scSeek : Sys κ Unit) := by
  refine advances_after (keeps_readRegister 4) fun pos => ?_
  refine advances_after (keeps_readRegister 5) fun id => ?_
  refine does_ite (fun _ => advances_ret _) fun _ => ?_
  refine advances_after (keeps_openfileAt _) fun r => ?_
  cases r with
  | none => exact advances_ret _
  | some p =>
    refine does_ite (fun _ => advances_ret _) fun _ => ?_
    refine advances_then (keeps_onFile _ _) fun len => ?_
    refine does_ite (fun _ => advances_ret _) fun _ => ?_
    exact advances_then (keeps_onFile _ _) fun _ => advances_ret _

theorem advances_scRemove (env : Env) : Advances (scRemove env : Sys κ Unit) := by
  refine advances_after (keeps_readRegister 4) fun virtAddr => ?_
  refine advances_after (keeps_user2System _ _ _) fun filename => ?_
  refine advances_then keeps_get fun k => ?_
  refine does_ite (fun _ => advances_ret _) fun _ => ?_
  refine does_ite (fun _ => advances_ret _) fun _ => ?_
  refine advances_then (keeps_setHost _) fun _ => ?_
  exact does_ite (fun _ => advances_ret _) fun _ => advances_ret _

theorem advances_scPrintString (env : Env) : Advances (scPrintString env : Sys κ Unit) := by
  refine advances_after (keeps_readRegister 4) fun virtAddr => ?_
  refine advances_after (keeps_user2System _ _ _) fun buffer => ?_
  exact advances_after (keeps_printBuffer _) fun _ => advances_increasePC

theorem advances_scReadString (env : Env) : Advances (scReadString env : Sys κ Unit) := by
  refine advances_after (keeps_readRegister 4) fun virAddr => ?_
  refine advances_after (keeps_readRegister 5) fun length => ?_
  refine advances_after (keeps_newBuffer _ _) fun strName => ?_
  refine advances_after keeps_readUntilNewline fun line => ?_
  refine advances_after (keeps_setOverrun _) fun _ => ?_
  exact advances_after (keeps_system2User _ _ _) fun _ => advances_increasePC

theorem advances_scPrintInt : Advances (scPrintInt : Sys κ Unit) := by
  refine advances_after (keeps_readRegister 4) fun number => ?_
  exact advances_after (keeps_printBuffer _) fun _ => advances_increasePC

theorem advances_scSocket (env : Env) : Advances (scSocket env : Sys κ Unit) := by
  refine advances_then keeps_get fun k => ?_
  cases k.fileSystem.isFull with
  | none => exact advances_ret _
  | some tempt =>
    refine advances_then keeps_get fun k => ?_
    refine advances_then (keeps_setHost _) fun _ => ?_
    refine advances_then (keeps_setFile _ _) fun _ => ?_
    refine does_ite (fun _ => ?_) fun _ => advances_ret _
    exact advances_then (keeps_setName _ _) fun _ => advances_ret _

theorem advances_scConnect (env : Env) : Advances (scConnect env : Sys κ Unit) := by
  refine advances_after (keeps_readRegister 4) fun socketid => ?_
  refine advances_after (keeps_readRegister 5) fun virtAddr => ?_
  refine does_ite (fun _ => advances_ret _) fun _ => ?_
  refine advances_after (keeps_openfileAt _) fun r => ?_
  cases r with
  | none => exact advances_ret _
  | some p =>
    refine advances_after (keeps_user2System _ _ _) fun ip => ?_
    refine advances_then (keeps_onFile _ _) fun r => ?_
    exact does_ite (fun _ => advances_ret _) fun _ => advances_ret _

theorem advances_scSend (env : Env) : Advances (scSend env : Sys κ Unit) := by
  refine advances_after (keeps_readRegister 4) fun virtAddr => ?_
  refine advances_after (keeps_readRegister 5) fun charcount => ?_
  refine advances_after (keeps_readRegister 6) fun id => ?_
  refine does_ite (fun _ => advances_ret _) fun _ => ?_
  refine advances_after (keeps_openfileAt _) fun r => ?_
  cases r with
  | none => exact advances_ret _
  | some p =>
    refine advances_after (keeps_user2System _ _ _) fun buf => ?_
    exact does_ite (fun _ => advances_writeSocket _ _ _ _) fun _ => advances_ret _

theorem advances_scReceive (env : Env) : Advances (scReceive env : Sys κ Unit) := by
  refine advances_after (keeps_readRegister 4) fun virtAddr => ?_
  refine advances_after (keeps_readRegister 5) fun charcount => ?_
  refine advances_after (keeps_readRegister 6) fun id => ?_
  refine does_ite (fun _ => advances_ret _) fun _ => ?_
  refine advances_after (keeps_openfileAt _) fun r => ?_
  cases r with
  | none => exact advances_ret _
  | some p =>
    refine advances_after (keeps_user2System _ _ _) fun buf => ?_
    exact does_ite (fun _ => advances_readSocket _ _ _ _ _) fun _ => advances_ret _

theorem advances_scExec (svc : Services κ) (env : Env) : Advances (scExec svc env) := by
  refine advances_after (keeps_readRegister 4) fun virtAddr => ?_
  refine advances_after (keeps_user2System _ _ _) fun name => ?_
  refine advances_then keeps_get fun k => ?_
  split
  · exact advances_then (keeps_setHost _) fun _ => advances_ret _
  · refine advances_then (keeps_lift _) fun h => ?_
    refine advances_then (keeps_setHost _) fun _ => ?_
    exact advances_after (keeps_service _) fun _ => advances_ret _

theorem advances_scJoin (svc : Services κ) : Advances (scJoin svc) := by
  refine advances_after (keeps_readRegister 4) fun id => ?_
  exact advances_after (keeps_service _) fun _ => advances_ret _

theorem advances_scExit (svc : Services κ) : Advances (scExit svc) := by
  refine advances_after (keeps_readRegister 4) fun exitcode => ?_
  exact advances_after (keeps_service _) fun _ => advances_ret _

theorem advances_semCall (env : Env) (f : Name → κ → Except Stop (Int × κ)) :
    Advances (semCall env f) := by
  refine advances_after (keeps_readRegister 4) fun virtAddr => ?_
  refine advances_after (keeps_user2System _ _ _) fun name => ?_
  exact advances_after (keeps_service _) fun _ => advances_ret _

theorem advances_scCreateSemaphore (svc : Services κ) (env : Env) :
    Advances (scCreateSemaphore svc env) :=
  advances_after (keeps_readRegister 5) fun _ => advances_semCall _ _

theorem advances_scExecV (svc : Services κ) (env : Env) : Advances (scExecV svc env) := by
  refine advances_after (keeps_readRegister 4) fun argc => ?_
  refine advances_after (keeps_readRegister 5) fun addr => ?_
  refine advances_after (keeps_newPointers _) fun _ => ?_
  refine advances_after (keeps_readArgs _ _ _) fun args => ?_
  refine advances_after (keeps_setOverrun _) fun _ => ?_
  exact advances_after (keeps_service _) fun _ => advances_ret _

/-- No call leaves `IncreasePC` out or goes through it twice. -/
theorem advances_syscall (svc : Services κ) (env : Env) (type : Int) :
    Advances (syscall svc env type) := by
  unfold syscall
  split
  · exact does_throw _
  · exact advances_scExit svc
  · exact advances_scExec svc env
  · exact advances_scJoin svc
  · exact advances_scCreate env
  · exact advances_scRemove env
  · exact advances_scOpen env
  · exact advances_scRead env
  · exact advances_scWrite env
  · exact advances_scSeek
  · exact advances_scClose
  · exact advances_scCreateSemaphore svc env
  · exact advances_semCall env svc.wait
  · exact advances_semCall env svc.signal
  · exact advances_scAdd
  · exact advances_scPrintString env
  · exact advances_scReadString env
  · exact advances_scPrintInt
  · exact advances_scSocket env
  · exact advances_scConnect env
  · exact advances_scSend env
  · exact advances_scReceive env
  · exact advances_scExecV svc env
  · exact does_throw _

/-- After a system call that returns, the program goes on as after an ordinary instruction
exactly if the call was not made with a branch pending. -/
theorem syscall_resumes_iff (svc : Services κ) (env : Env) {k k' : Kernel κ}
    (h : exceptionHandler svc env .syscallException k = .ok ((), k')) :
    counters k' = k.machine.ordinary.counters ↔
      k.machine.registers nextPCReg = wrap (k.machine.registers pcReg + 4) := by
  have hadv : counters k' = increased (counters k) :=
    advances_after (keeps_readRegister 2) (fun type => advances_syscall svc env type) k () k' h
  have hord : k.machine.ordinary.counters =
      (k.machine.registers nextPCReg, wrap (k.machine.registers nextPCReg + 4)) := rfl
  rw [hadv, hord, increased, counters, Machine.counters, Prod.mk.injEq]
  constructor
  · intro heq
    exact heq.1.symm
  · intro heq
    rw [heq]
    exact ⟨rfl, rfl⟩

def zeroServices : Services Unit where
  execUpdate _ _ := .ok (0, ())
  execV _ _ _ := .ok (0, ())
  joinUpdate _ _ := .ok (0, ())
  exitUpdate _ _ := .ok ((), ())
  create _ _ _ := .ok (0, ())
  wait _ _ := .ok (0, ())
  signal _ _ := .ok (0, ())

def noEnv : Env := ⟨none, none, [], false, false, fun _ => 0⟩

def bareKernel (m : Machine) : Kernel Unit :=
  ⟨m, ⟨fun _ => none, fun _ => []⟩, ⟨fun _ => none, fun _ => [], fun _ => none, 0, []⟩, [], [],
    false, ()⟩

def addMachine : Machine :=
  ⟨fun _ => 0, fun i => if i = 2 then 42 else if i = pcReg then 4 else if i = nextPCReg then 8
    else 0, none, some [], 0⟩

theorem syscall_resumes_add : ∃ k', exceptionHandler zeroServices noEnv .syscallException
    (bareKernel addMachine) = .ok ((), k') ∧ counters k' = addMachine.ordinary.counters := by
  obtain ⟨k', h⟩ : ∃ k', exceptionHandler zeroServices noEnv .syscallException
      (bareKernel addMachine) = .ok ((), k') := ⟨_, rfl⟩
  exact ⟨k', h, (syscall_resumes_iff zeroServices noEnv h).mpr (by decide)⟩

/-- The same call in the delay slot of a jump from 0 to 100: the program goes on at 8 and
not at 100. -/
theorem syscall_in_delay_slot :
    let m := ((addMachine.setRegister pcReg 0).setRegister nextPCReg 4).advance 100
    ∃ k', exceptionHandler zeroServices noEnv .syscallException (bareKernel m) = .ok ((), k') ∧
      counters k' = (8, 12) ∧ m.ordinary.counters = (100, 104) :=
  ⟨_, rfl, by decide, by decide⟩

end Sys
end Nachos
