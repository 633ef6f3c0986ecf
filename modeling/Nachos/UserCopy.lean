import Nachos.ExceptionHandler
import Nachos.Lib.Programs

namespace Nachos
open TwosComplement Programs

/-- The exceptions for which `ExceptionHandler` calls `Halt`. -/
def ExceptionType.IsFault (e : ExceptionType) : Prop :=
  e ≠ .noException ∧ e ≠ .syscallException

namespace Machine
variable {m m' : Machine} {addr size v : Int} {writing : Bool}

theorem findEntry_isFault {vpn : ℕ} {e : ExceptionType} (h : m.findEntry vpn = .raised e m') :
    e.IsFault := by
  unfold findEntry at h
  split at h
  · split_ifs at h
    · cases h
      exact ⟨nofun, nofun⟩
    · split at h
      · cases h
      · split_ifs at h
        cases h
        exact ⟨nofun, nofun⟩
  · split at h
    · cases h
      exact ⟨nofun, nofun⟩
    · split at h <;> cases h

theorem translate_isFault {e : ExceptionType} (h : m.translate addr size writing = .raised e m') :
    e.IsFault := by
  unfold translate at h
  split_ifs at h
  · cases h
    exact ⟨nofun, nofun⟩
  · dsimp only at h
    split at h
    · next he =>
      cases h
      exact findEntry_isFault he
    · cases h
    · split_ifs at h <;> cases h <;> exact ⟨nofun, nofun⟩

theorem readMem_isFault {e : ExceptionType} (h : m.readMem addr size = .raised e m') :
    e.IsFault := by
  unfold readMem at h
  split at h
  · next ht =>
    cases h
    exact translate_isFault ht
  · cases h
  · split at h <;> cases h

theorem writeMem_isFault {value : Int} {e : ExceptionType}
    (h : m.writeMem addr size value = .raised e m') : e.IsFault := by
  unfold writeMem at h
  split at h
  · next ht =>
    cases h
    exact translate_isFault ht
  · cases h
  · split at h <;> cases h

end Machine

namespace Sys
variable {κ α : Type}

def regs (k : Kernel κ) : ℕ → Int := k.machine.registers

def files (k : Kernel κ) : Files := (k.fileSystem, k.host)

/-- Everything but memory, page tables and the console. -/
def rest (k : Kernel κ) : (ℕ → Int) × Files := (regs k, files k)

theorem keeps_regs {f : Sys κ α} (h : Keeps rest f) : Keeps regs f := h.comp Prod.fst

theorem keeps_files {f : Sys κ α} (h : Keeps rest f) : Keeps files f := h.comp Prod.snd

theorem keeps_readRegister (num : ℕ) : Keeps rest (readRegister num : Sys κ Int) := by
  intro k a k' h
  cases h
  rfl

theorem fault_eq {e : ExceptionType} (h : e.IsFault) (k : Kernel κ) :
    fault e k = .error (.halt e) := by
  obtain ⟨h₁, h₂⟩ := h
  cases e <;> first | rfl | contradiction

/-- An access that translates goes through; one that does not ends in `Halt`. -/
theorem readMem_eq (addr size : Int) (k : Kernel κ) :
    readMem addr size k =
      match k.machine.readMem addr size with
      | .done v m => .ok (some v, { k with machine := m })
      | .raised e _ => .error (.halt e)
      | .abort => .error (.abort .translate) := by
  unfold readMem
  cases h : k.machine.readMem addr size with
  | done v m => rfl
  | raised e m => exact bind_of_error (fault_eq (Machine.readMem_isFault h) _)
  | abort => rfl

theorem writeMem_eq (addr size value : Int) (k : Kernel κ) :
    writeMem addr size value k =
      match k.machine.writeMem addr size value with
      | .done () m => .ok ((), { k with machine := m })
      | .raised e _ => .error (.halt e)
      | .abort => .error (.abort .translate) := by
  unfold writeMem
  cases h : k.machine.writeMem addr size value with
  | done _ m => rfl
  | raised e m => exact fault_eq (Machine.writeMem_isFault h) _
  | abort => rfl

theorem keeps_readMem (addr size : Int) : Keeps rest (readMem addr size : Sys κ (Option Int)) := by
  intro k a k' h
  rw [readMem_eq] at h
  split at h
  · next hr =>
    cases h
    simp only [rest, regs, files, Machine.readMem_registers hr]
  · cases h
  · cases h

theorem keeps_writeMem (addr size value : Int) :
    Keeps rest (writeMem addr size value : Sys κ Unit) := by
  intro k a k' h
  rw [writeMem_eq] at h
  split at h
  · next hr =>
    cases h
    simp only [rest, regs, files, Machine.writeMem_registers hr]
  · cases h
  · cases h

theorem keeps_setOverrun (b : Bool) : Keeps rest (setOverrun b : Sys κ Unit) :=
  keeps_modify fun _ => rfl

section Observation
variable {γ : Type} {obs : Kernel κ → γ}

theorem keeps_newBuffer (size : Int) (byte : ℕ → UInt8) :
    Keeps obs (newBuffer size byte : Sys κ Buffer) :=
  does_ite (fun _ => does_throw _) fun _ => keeps_pure _

/-- An access to memory changes the machine only. -/
theorem readMem_keeps (hobs : ∀ k m, obs { k with machine := m } = obs k) (addr size : Int) :
    Keeps obs (readMem addr size : Sys κ (Option Int)) := by
  intro k a k' h
  rw [readMem_eq] at h
  split at h <;> cases h
  exact hobs _ _

theorem writeMem_keeps (hobs : ∀ k m, obs { k with machine := m } = obs k)
    (addr size value : Int) : Keeps obs (writeMem addr size value : Sys κ Unit) := by
  intro k a k' h
  rw [writeMem_eq] at h
  split at h <;> cases h
  exact hobs _ _

theorem copyIn_keeps (hread : ∀ addr size, Keeps obs (readMem addr size : Sys κ (Option Int)))
    (addr oneChar : Int) (n : ℕ) : Keeps obs (copyIn addr oneChar n : Sys κ (List UInt8)) := by
  induction n generalizing addr oneChar with
  | zero => exact keeps_pure _
  | succ n ih =>
    apply keeps_bind (hread _ _)
    intro v
    apply does_ite (fun _ => keeps_pure _)
    intro _
    exact keeps_bind (ih _ _) fun _ => keeps_pure _

theorem user2System_keeps
    (hread : ∀ addr size, Keeps obs (readMem addr size : Sys κ (Option Int))) (env : Env)
    (virtAddr limit : Int) : Keeps obs (user2System env virtAddr limit : Sys κ Buffer) := by
  apply keeps_bind (keeps_newBuffer _ _)
  intro b
  exact keeps_bind (copyIn_keeps hread _ _ _) fun _ => keeps_pure _

theorem copyOut_keeps
    (hwrite : ∀ addr size value, Keeps obs (writeMem addr size value : Sys κ Unit)) (addr : Int)
    (buffer : ℕ → UInt8) (i n : ℕ) : Keeps obs (copyOut addr buffer i n : Sys κ Int) := by
  induction n generalizing addr i with
  | zero => exact keeps_pure _
  | succ n ih =>
    apply keeps_bind (hwrite _ _ _)
    intro _
    exact does_ite (fun _ => keeps_pure _) fun _ => ih _ _

theorem system2User_keeps
    (hwrite : ∀ addr size value, Keeps obs (writeMem addr size value : Sys κ Unit))
    (virtAddr len : Int) (buffer : Buffer) :
    Keeps obs (system2User virtAddr len buffer : Sys κ Int) := by
  apply does_ite (fun _ => keeps_pure _)
  intro _
  exact does_ite (fun _ => keeps_pure _) fun _ => copyOut_keeps hwrite _ _ _ _

end Observation

theorem keeps_user2System (env : Env) (virtAddr limit : Int) :
    Keeps rest (user2System env virtAddr limit : Sys κ Buffer) :=
  user2System_keeps keeps_readMem env virtAddr limit

theorem keeps_system2User (virtAddr len : Int) (buffer : Buffer) :
    Keeps rest (system2User virtAddr len buffer : Sys κ Int) :=
  system2User_keeps keeps_writeMem virtAddr len buffer

theorem keeps_readChar : Keeps rest (readChar : Sys κ UInt8) := by
  intro k a k' h
  unfold readChar at h
  split at h <;> cases h
  rfl

theorem keeps_putChar (ch : UInt8) : Keeps rest (putChar ch : Sys κ Unit) := by
  intro k a k' h
  cases h
  rfl

theorem keeps_printBuffer (chars : List UInt8) : Keeps rest (printBuffer chars : Sys κ Unit) := by
  induction chars with
  | nil => exact keeps_pure _
  | cons c chars ih => exact keeps_bind (keeps_putChar _) fun _ => ih

theorem keeps_readLine (n : ℕ) : Keeps rest (readLine n : Sys κ (List UInt8)) := by
  induction n with
  | zero => exact keeps_pure _
  | succ n ih =>
    refine keeps_bind keeps_readChar fun c => ?_
    refine does_ite (fun _ => keeps_pure _) fun _ => ?_
    exact keeps_bind ih fun _ => keeps_pure _

theorem keeps_readUntilNewline : Keeps rest (readUntilNewline : Sys κ (List UInt8)) := by
  intro k a k' h
  unfold readUntilNewline at h
  dsimp only at h
  split at h
  · cases h
  · split_ifs at h
    cases h
    rfl

theorem keeps_putUntilNul (b : Buffer) (lengthWrite n : ℕ) :
    Keeps rest (putUntilNul b lengthWrite n : Sys κ ℕ) := by
  induction n generalizing lengthWrite with
  | zero => exact keeps_pure _
  | succ n ih =>
    refine does_ite (fun _ => keeps_pure _) fun _ => ?_
    exact keeps_bind (keeps_putChar _) fun _ => ih _

theorem keeps_putString (env : Env) (fuel : ℕ) (virtAddr : Int) (buf : Buffer) :
    Keeps rest (putString env fuel virtAddr buf : Sys κ Int) := by
  induction fuel generalizing virtAddr buf with
  | zero => exact does_throw _
  | succ fuel ih =>
    refine keeps_bind (keeps_putUntilNul _ _ _) fun lengthWrite => ?_
    refine does_ite (fun _ => ?_) fun _ => keeps_pure _
    exact keeps_bind (keeps_user2System _ _ _) fun _ => ih _ _

theorem keeps_readArgs (env : Env) (addr : Int) (n : ℕ) :
    Keeps rest (readArgs env addr n : Sys κ (List Name)) := by
  induction n generalizing addr with
  | zero => exact keeps_pure _
  | succ n ih =>
    refine keeps_bind (keeps_readMem _ _) fun v => ?_
    refine keeps_bind (keeps_user2System _ _ _) fun arg => ?_
    exact keeps_bind (ih _) fun _ => keeps_pure _

end Sys
end Nachos
