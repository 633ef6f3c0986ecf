import Nachos.Lib.GuardedRun
import Nachos.Lib.X86

namespace Nachos.KernelSwitch
open X86 Buffers GuardedRun

/-- `_ESP`, …, `_EDI` of threads/switch.h: where a `Thread` object keeps a register. -/
def offset : Reg → ℕ
  | .esp => 0
  | .eax => 4
  | .ebx => 8
  | .ecx => 12
  | .edx => 16
  | .ebp => 20
  | .esi => 24
  | .edi => 28

def pcOffset : ℕ := 32

def recordSize : ℕ := 36

/-- The first half of `SWITCH`; `eaxSave` is the address of the variable `_eax_save`. -/
def saveCode (eaxSave : ℕ) : List Instr :=
  [.storeAt .eax eaxSave, .load 4 .esp .eax, .store .ebx (offset .ebx) .eax,
   .store .ecx (offset .ecx) .eax, .store .edx (offset .edx) .eax,
   .store .esi (offset .esi) .eax, .store .edi (offset .edi) .eax,
   .store .ebp (offset .ebp) .eax, .store .esp (offset .esp) .eax, .loadAt eaxSave .ebx,
   .store .ebx (offset .eax) .eax, .load 0 .esp .ebx, .store .ebx pcOffset .eax]

def loadCode (eaxSave : ℕ) : List Instr :=
  [.load 8 .esp .eax, .load (offset .eax) .eax .ebx, .storeAt .ebx eaxSave,
   .load (offset .ebx) .eax .ebx, .load (offset .ecx) .eax .ecx, .load (offset .edx) .eax .edx,
   .load (offset .esi) .eax .esi, .load (offset .edi) .eax .edi, .load (offset .ebp) .eax .ebp,
   .load (offset .esp) .eax .esp, .load pcOffset .eax .eax, .store .eax 4 .esp,
   .loadAt eaxSave .eax]

def switchCode (eaxSave : ℕ) : List Instr := saveCode eaxSave ++ loadCode eaxSave

/-- `ThreadRoot`: `StartupPC` is `%ecx`, `InitialPC` is `%esi`, `InitialArg` is `%edx` and
`WhenDonePC` is `%edi`.  The last call does not return. -/
def rootCode : List Instr :=
  [.push .ebp, .mov .esp .ebp, .push .edx, .call .ecx, .call .esi, .call .edi, .mov .ebp .esp,
   .pop .ebp, .ret]

theorem straight_switchCode (eaxSave : ℕ) : ∀ i ∈ switchCode eaxSave, i.straight = true := by
  simp [switchCode, saveCode, loadCode, Instr.straight]

section Save
variable {s : State} {g e p : ℕ} {record : Word}

def savedMem (s : State) (g p : ℕ) : Bytes :=
  let m := storeWord s.mem g (s.regs .eax)
  let m := storeWord m (p + 8) (s.regs .ebx)
  let m := storeWord m (p + 12) (s.regs .ecx)
  let m := storeWord m (p + 16) (s.regs .edx)
  let m := storeWord m (p + 24) (s.regs .esi)
  let m := storeWord m (p + 28) (s.regs .edi)
  let m := storeWord m (p + 20) (s.regs .ebp)
  let m := storeWord m p (s.regs .esp)
  let m := storeWord m (p + 4) (s.regs .eax)
  storeWord m (p + 32) (wordAt s.mem (s.regs .esp).toNat)

theorem foldl_saveCode (hg : g % 4 = 0) (hesp : (s.regs .esp).toNat % 4 = 0)
    (hp : record.toNat % 4 = 0)
    (harg : wordAt s.mem ((s.regs .esp).toNat + 4) = record)
    (hge : g + 4 ≤ (s.regs .esp).toNat ∨ (s.regs .esp).toNat + 12 ≤ g)
    (hgp : g + 4 ≤ record.toNat ∨ record.toNat + recordSize ≤ g)
    (hpe : record.toNat + recordSize ≤ (s.regs .esp).toNat ∨
      (s.regs .esp).toNat + 12 ≤ record.toNat) :
    ((saveCode g).foldl State.effect s).mem = savedMem s g record.toNat ∧
    ((saveCode g).foldl State.effect s).regs .esp = s.regs .esp := by
  have hptr : wordAt (storeWord s.mem g (s.regs .eax)) ((s.regs .esp).toNat + 4) = record := by
    rw [wordAt_storeWord_of_ne hg (by omega) (by omega), harg]
  unfold recordSize at *
  simp only [saveCode, List.foldl_cons, List.foldl_nil, State.effect, State.address, offset,
    pcOffset, State.set_mem, State.setMem_mem, State.setMem_regs, State.set_regs, reduceCtorEq,
    if_true, if_false, hptr, and_true]
  simp (disch := omega) only [add_zero, wordAt_storeWord_of_ne, wordAt_storeWord_self]
  rfl

theorem savedMem_record (hp : p % 4 = 0) (r : Reg) :
    wordAt (savedMem s g p) (p + offset r) = s.regs r := by
  unfold savedMem
  cases r <;> simp (disch := omega) only [offset, add_zero, wordAt_storeWord_of_ne,
    wordAt_storeWord_self]

theorem savedMem_outside {x : ℕ} (hp : x < p ∨ p + recordSize ≤ x) (hg : x < g ∨ g + 4 ≤ x) :
    savedMem s g p x = s.mem x := by
  unfold recordSize at hp
  unfold savedMem
  simp (disch := omega) only [storeWord_outside]

end Save

section Load
variable {s : State} {g : ℕ} {record : Word}

/-- The memory after the second half, for an object at `q`: the saved program counter goes above
the return address on the new stack, where no one looks at it. -/
def loadedMem (m : Bytes) (g q : ℕ) : Bytes :=
  storeWord (storeWord m g (wordAt m (q + 4))) ((wordAt m q).toNat + 4) (wordAt m (q + 32))

theorem foldl_loadCode (hg : g % 4 = 0) (hq : record.toNat % 4 = 0)
    (harg : wordAt s.mem ((s.regs .esp).toNat + 8) = record)
    (hgq : g + 4 ≤ record.toNat ∨ record.toNat + recordSize ≤ g)
    (hnew : (wordAt s.mem record.toNat).toNat % 4 = 0)
    (hgnew : g ≠ (wordAt s.mem record.toNat).toNat + 4) :
    (∀ r, ((loadCode g).foldl State.effect s).regs r =
      wordAt s.mem (record.toNat + offset r)) ∧
    ((loadCode g).foldl State.effect s).mem = loadedMem s.mem g record.toNat := by
  unfold recordSize at hgq
  simp only [loadCode, List.foldl_cons, List.foldl_nil, State.effect, State.address, offset,
    pcOffset, State.set_mem, State.setMem_mem, State.setMem_regs, State.set_regs, reduceCtorEq,
    if_true, if_false, harg]
  constructor
  · intro r
    cases r <;> simp (disch := omega) only [add_zero, reduceCtorEq, if_true, if_false,
      wordAt_storeWord_of_ne, wordAt_storeWord_self]
  · simp (disch := omega) only [add_zero, wordAt_storeWord_of_ne]
    rfl

end Load

def Apart (a n b m : ℕ) : Prop := a + n ≤ b ∨ b + m ≤ a

/-- Where the threads and the code of the kernel lie. -/
structure Kernel (T : Type) where
  record : T → Word
  stack : T → ℕ
  size : T → ℕ
  eaxSave : ℕ
  code : Code
  switch : Word
  switchRet : Word
  threadRoot : Word
  threadRootEnd : Word
  threadBegin : Word
  threadFinish : Word
  record_aligned : ∀ t, (record t).toNat % 4 = 0
  stack_aligned : ∀ t, stack t % 4 = 0
  save_aligned : eaxSave % 4 = 0
  stack_fits : ∀ t, stack t + size t ≤ 2 ^ 32
  records_apart : ∀ t u, t ≠ u → Apart (record t).toNat recordSize (record u).toNat recordSize
  record_stack : ∀ t u, Apart (record t).toNat recordSize (stack u) (size u)
  stacks_apart : ∀ t u, t ≠ u → Apart (stack t) (size t) (stack u) (size u)
  save_record : ∀ t, Apart eaxSave 4 (record t).toNat recordSize
  save_stack : ∀ t, Apart eaxSave 4 (stack t) (size t)
  switch_lies : Lies code switch (switchCode eaxSave) switchRet
  switch_ret : ∃ next, code switchRet = some (.ret, next)
  root_lies : Lies code threadRoot rootCode threadRootEnd

/-- What a thread is to find when `SWITCH` returns to it: the registers and the memory at its
call, with `esp` at the return address. -/
structure Context where
  regs : Reg → Word
  mem : Bytes

def Context.pc (k : Context) : Word := wordAt k.mem (k.regs .esp).toNat

def contextOf (s : State) : Context := ⟨s.regs, s.mem⟩

def stackSize : ℕ := 8 * 1024
def fencepost : Word := 0xdedbeef

section
variable {T : Type} (K : Kernel T)

def stackTop (t : T) : ℕ := K.stack t + 4 * (stackSize - 4 - 1)

/-- The constructor of `Thread`, as far as `SWITCH` sees it, and `StackAllocate`. -/
def stackAllocate (t : T) (func arg : Word) (m : Bytes) : Bytes :=
  let p := (K.record t).toNat
  let m := bcopy (fun _ => 0) m p recordSize
  let m := storeWord m (stackTop K t) K.threadRoot
  let m := storeWord m (K.stack t) fencepost
  let m := storeWord m (p + offset .esp) (BitVec.ofNat 32 (stackTop K t))
  let m := storeWord m (p + pcOffset) K.threadRoot
  let m := storeWord m (p + offset .ecx) K.threadBegin
  let m := storeWord m (p + offset .esi) func
  let m := storeWord m (p + offset .edx) arg
  storeWord m (p + offset .edi) K.threadFinish

def initialContext (t : T) (func arg : Word) (m : Bytes) : Context where
  regs
    | .esp => BitVec.ofNat 32 (stackTop K t)
    | .ecx => K.threadBegin
    | .esi => func
    | .edx => arg
    | .edi => K.threadFinish
    | _ => 0
  mem := stackAllocate K t func arg m

/-- The processor, the thread it runs, and, for every other thread there is, what it is to find
when it runs again. -/
structure System (T : Type) where
  cpu : State
  current : T
  saved : T → Option Context

/-- The current thread computes in any way, makes and forks a thread, deletes one, or calls
`SWITCH`. -/
inductive Act (T : Type) where
  | compute (cpu : State)
  | fork (t : T) (func arg : Word)
  | delete (t : T)
  | switch (t : T)

def step [DecidableEq T] (s : System T) : Act T → Option (System T)
  | .compute cpu => some { s with cpu }
  | .fork t func arg =>
    some { s with
      cpu := { s.cpu with mem := stackAllocate K t func arg s.cpu.mem }
      saved := Function.update s.saved t (some (initialContext K t func arg s.cpu.mem)) }
  | .delete t => some { s with saved := Function.update s.saved t none }
  | .switch t =>
    (steps K.code ((switchCode K.eaxSave).length + 1) s.cpu).map fun cpu =>
      ⟨cpu, t, Function.update (Function.update s.saved s.current (some (contextOf s.cpu))) t none⟩

def Owns (t : T) (x : ℕ) : Prop :=
  (K.record t).toNat ≤ x ∧ x < (K.record t).toNat + recordSize ∨
    K.stack t ≤ x ∧ x < K.stack t + K.size t

/-- The stack pointer is on the stack of the thread, with room for a return address and two
arguments above it. -/
structure OnStack (t : T) (esp : Word) : Prop where
  aligned : esp.toNat % 4 = 0
  bottom : K.stack t ≤ esp.toNat
  top : esp.toNat + 12 ≤ K.stack t + K.size t

/-- No thread writes to the memory of another; a thread that is forked is new, and its stack is
as large as `StackAllocate` makes it; `SWITCH` is called from the stack of the current thread
with that thread and another, or itself again. -/
def Ok (s : System T) : Act T → Prop
  | .compute cpu => ∀ t x, s.saved t ≠ none → Owns K t x → cpu.mem x = s.cpu.mem x
  | .fork t _ _ => t ≠ s.current ∧ s.saved t = none ∧ K.size t = 4 * stackSize
  | .delete t => t ≠ s.current
  | .switch t => s.cpu.eip = K.switch ∧ OnStack K s.current (s.cpu.regs .esp) ∧
      wordAt s.cpu.mem ((s.cpu.regs .esp).toNat + 4) = K.record s.current ∧
      wordAt s.cpu.mem ((s.cpu.regs .esp).toNat + 8) = K.record t ∧
      (t = s.current ∨ s.saved t ≠ none)

/-- A thread that is not running: its object and its stack have what it is to find. -/
structure Parked (m : Bytes) (t : T) (k : Context) : Prop where
  record : ∀ r, wordAt m ((K.record t).toNat + offset r) = k.regs r
  onStack : OnStack K t (k.regs .esp)
  stack : ∀ x, (k.regs .esp).toNat ≤ x → x < K.stack t + K.size t → m x = k.mem x

/-- The thread is back from `SWITCH`: the registers are as they were, and so is the stack, but
for the first argument of the call. -/
structure Resumes (t : T) (k : Context) (cpu : State) : Prop where
  regs : ∀ r, r ≠ .esp → cpu.regs r = k.regs r
  esp : cpu.regs .esp = k.regs .esp + 4
  eip : cpu.eip = k.pc
  stack : ∀ x, (k.regs .esp).toNat ≤ x → x < K.stack t + K.size t →
    x < (k.regs .esp).toNat + 4 ∨ (k.regs .esp).toNat + 8 ≤ x → cpu.mem x = k.mem x

def Inv (s : System T) : Prop :=
  ∀ t k, s.saved t = some k → t ≠ s.current ∧ Parked K s.cpu.mem t k

variable {K} {s s' : System T} {m m' : Bytes} {t u : T} {k : Context} {x : ℕ}

theorem owns_record (r : Reg) {j : ℕ} (hj : j < 4) :
    Owns K t ((K.record t).toNat + offset r + j) := by
  refine .inl ⟨by omega, ?_⟩
  unfold recordSize
  cases r <;> simp only [offset] <;> omega

theorem owns_stack {esp : Word} (h : OnStack K t esp) (hx : esp.toNat ≤ x)
    (hlt : x < K.stack t + K.size t) : Owns K t x := .inr ⟨h.bottom.trans hx, hlt⟩

theorem Owns.ne (ht : Owns K t x) (hu : Owns K u x) : t = u := by
  by_contra hne
  have h₁ := K.records_apart t u hne
  have h₂ := K.record_stack t u
  have h₃ := K.record_stack u t
  have h₄ := K.stacks_apart t u hne
  unfold Owns Apart at *
  omega

theorem Owns.ne_save (ht : Owns K t x) : x < K.eaxSave ∨ K.eaxSave + 4 ≤ x := by
  have h₁ := K.save_record t
  have h₂ := K.save_stack t
  unfold Owns Apart at *
  omega

theorem Parked.of_owned (h : Parked K m t k) (hsame : ∀ x, Owns K t x → m' x = m x) :
    Parked K m' t k := by
  refine ⟨fun r => ?_, h.onStack, fun x hx hlt => ?_⟩
  · rw [← h.record r]
    exact wordAt_congr fun j hj => hsame _ (owns_record r hj)
  · rw [hsame x (owns_stack h.onStack hx hlt), h.stack x hx hlt]

theorem savedMem_owned (hne : u ≠ s.current) (hx : Owns K u x) :
    savedMem s.cpu K.eaxSave (K.record s.current).toNat x = s.cpu.mem x := by
  apply savedMem_outside
  · have hout : ¬Owns K s.current x := fun h => hne (hx.ne h)
    unfold Owns at hout
    omega
  · exact hx.ne_save

section Switch
variable (hok : Ok K s (.switch t))
include hok

theorem parked_current : Parked K (savedMem s.cpu K.eaxSave (K.record s.current).toNat) s.current
    (contextOf s.cpu) := by
  obtain ⟨-, hstack, -, -⟩ := hok
  refine ⟨savedMem_record (K.record_aligned _), hstack, fun x hx hlt => ?_⟩
  have hrecord := K.record_stack s.current s.current
  have hbottom := hstack.bottom
  dsimp only [contextOf] at hx
  unfold Apart at hrecord
  apply savedMem_outside
  · omega
  · exact (owns_stack hstack hx hlt).ne_save

theorem parked_saved [DecidableEq T] (hinv : Inv K s)
    (hk : Function.update s.saved s.current (some (contextOf s.cpu)) u = some k) :
    Parked K (savedMem s.cpu K.eaxSave (K.record s.current).toNat) u k := by
  by_cases hu : u = s.current
  · subst hu
    rw [Function.update_self] at hk
    obtain rfl := Option.some.inj hk
    exact parked_current hok
  · rw [Function.update_of_ne hu] at hk
    obtain ⟨hne, hparked⟩ := hinv u k hk
    exact hparked.of_owned fun x hx => savedMem_owned hne hx

theorem foldl_switchCode
    (hk : Parked K (savedMem s.cpu K.eaxSave (K.record s.current).toNat) t k) :
    ((switchCode K.eaxSave).foldl State.effect s.cpu).mem =
      loadedMem (savedMem s.cpu K.eaxSave (K.record s.current).toNat) K.eaxSave
        (K.record t).toNat ∧
    ∀ r, ((switchCode K.eaxSave).foldl State.effect s.cpu).regs r = k.regs r := by
  have hparked := parked_current hok
  obtain ⟨-, hstack, hold, hnew, -⟩ := hok
  have htop := hstack.top
  have hbottom := hstack.bottom
  have hrecord := K.record_stack s.current s.current
  have hsave := K.save_stack s.current
  have hktop := hk.onStack.top
  have hkbottom := hk.onStack.bottom
  have hksave := K.save_stack t
  have hkesp := hk.record .esp
  unfold Apart at *
  obtain ⟨hmem, hesp⟩ := foldl_saveCode (s := s.cpu) K.save_aligned hstack.aligned
    (K.record_aligned _) hold (by omega) (K.save_record _) (by omega)
  rw [offset, add_zero] at hkesp
  rw [switchCode, List.foldl_append]
  generalize (saveCode K.eaxSave).foldl State.effect s.cpu = s₁ at hmem hesp ⊢
  rw [← hmem] at hk hparked hkesp ⊢
  -- the second argument is still on the stack
  have harg : wordAt s₁.mem ((s₁.regs .esp).toNat + 8) = K.record t := by
    rw [hesp, ← hnew]
    exact wordAt_congr fun j hj => hparked.stack _ (by dsimp only [contextOf]; omega) (by omega)
  obtain ⟨hregs, hloaded⟩ := foldl_loadCode K.save_aligned (K.record_aligned t) harg
    (K.save_record t) (by rw [hkesp]; exact hk.onStack.aligned) (by rw [hkesp]; omega)
  exact ⟨hloaded, fun r => (hregs r).trans (hk.record r)⟩

/-- The second half of `SWITCH` brings back the thread it is given, and writes to no other. -/
theorem switch_steps
    (hk : Parked K (savedMem s.cpu K.eaxSave (K.record s.current).toNat) t k) :
    ∃ cpu, steps K.code ((switchCode K.eaxSave).length + 1) s.cpu = some cpu ∧
      Resumes K t k cpu ∧ ∀ u ≠ t, ∀ x, Owns K u x →
        cpu.mem x = savedMem s.cpu K.eaxSave (K.record s.current).toNat x := by
  obtain ⟨hmem, hregs⟩ := foldl_switchCode hok hk
  obtain ⟨heip, -⟩ := hok
  obtain ⟨next, hret⟩ := K.switch_ret
  have hktop := hk.onStack.top
  have hstraight := steps_straight K.switch_lies (straight_switchCode _) heip
  have hkesp : (wordAt (savedMem s.cpu K.eaxSave (K.record s.current).toNat)
      (K.record t).toNat).toNat = (k.regs .esp).toNat := congrArg BitVec.toNat (hk.record .esp)
  generalize (switchCode K.eaxSave).foldl State.effect s.cpu = s₂ at hmem hregs hstraight
  -- what the second half writes: `_eax_save`, and a word of the new stack
  have hwrites : ∀ x, x < K.eaxSave ∨ K.eaxSave + 4 ≤ x →
      x < (k.regs .esp).toNat + 4 ∨ (k.regs .esp).toNat + 8 ≤ x →
      s₂.mem x = savedMem s.cpu K.eaxSave (K.record s.current).toNat x := by
    intro x h₁ h₂
    rw [hmem, loadedMem, hkesp, storeWord_outside (by omega), storeWord_outside h₁]
  refine ⟨_, (steps_add ..).trans (by
      rw [hstraight, Option.bind_some, steps_one, step_ret (by exact hret)]),
    ⟨fun r hr => ?_, ?_, ?_, fun x hx hlt hout => ?_⟩, fun u hu x hx => ?_⟩
  · rw [← hregs r]
    exact Function.update_of_ne hr ..
  · rw [← hregs .esp]
    simp only [State.set_regs, if_true]
  · change wordAt s₂.mem (s₂.regs .esp).toNat = k.pc
    rw [hregs]
    apply wordAt_congr
    intro j hj
    exact (hwrites _ (owns_stack hk.onStack (by omega) (by omega)).ne_save (by omega)).trans
      (hk.stack _ (by omega) (by omega))
  · exact (hwrites x (owns_stack hk.onStack hx hlt).ne_save hout).trans (hk.stack x hx hlt)
  · apply hwrites x hx.ne_save
    have hout : ¬Owns K t x := fun h => hu (hx.ne h)
    have hbottom := hk.onStack.bottom
    unfold Owns at hout
    omega

end Switch

section Fork
variable (hsize : K.size t = 4 * stackSize) (func arg : Word)
include hsize

theorem toNat_stackTop : (BitVec.ofNat 32 (stackTop K t)).toNat = stackTop K t := by
  have hfits := K.stack_fits t
  rw [BitVec.toNat_ofNat, Nat.mod_eq_of_lt]
  unfold stackTop
  unfold stackSize at *
  omega

theorem onStack_stackTop : OnStack K t (BitVec.ofNat 32 (stackTop K t)) := by
  have haligned := K.stack_aligned t
  constructor
  all_goals
    rw [toNat_stackTop hsize]
    unfold stackTop
    unfold stackSize at *
    omega

theorem stackAllocate_outside (m : Bytes) (hx : ¬Owns K t x) :
    stackAllocate K t func arg m x = m x := by
  unfold Owns recordSize at hx
  unfold stackAllocate stackTop
  unfold stackSize at *
  simp (disch := omega) only [offset, pcOffset, recordSize, storeWord_outside, bcopy_outside]

theorem parked_stackAllocate (m : Bytes) :
    Parked K (stackAllocate K t func arg m) t (initialContext K t func arg m) := by
  have haligned := K.record_aligned t
  have hstack := K.stack_aligned t
  have hapart := K.record_stack t t
  have hfits := K.stack_fits t
  have hzero : ∀ i, i + 4 ≤ recordSize →
      wordAt (bcopy (fun _ => 0) m (K.record t).toNat recordSize) ((K.record t).toNat + i) =
        0 := by
    intro i hi
    apply wordAt_of_bytes
    intro j hj
    rw [Nat.add_assoc, bcopy_inside (by omega)]
    simp [byteOf]
  refine ⟨fun r => ?_, onStack_stackTop hsize, fun x _ _ => rfl⟩
  unfold stackAllocate stackTop Apart recordSize stackSize at *
  cases r
  all_goals
    simp (disch := omega) only [offset, pcOffset, initialContext, stackTop, stackSize,
      wordAt_storeWord_of_ne, wordAt_storeWord_self, hzero]

theorem pc_initialContext (m : Bytes) : (initialContext K t func arg m).pc = K.threadRoot := by
  have haligned := K.record_aligned t
  have hstack := K.stack_aligned t
  have hapart := K.record_stack t t
  rw [Context.pc, initialContext, toNat_stackTop hsize]
  unfold stackAllocate stackTop Apart recordSize stackSize at *
  simp (disch := omega) only [offset, pcOffset, wordAt_storeWord_of_ne, wordAt_storeWord_self]

end Fork

variable [DecidableEq T]

theorem inv_fork (func arg : Word) (hok : Ok K s (.fork t func arg)) (hinv : Inv K s)
    (hs : step K s (.fork t func arg) = some s') : Inv K s' := by
  obtain ⟨hne, -, hsize⟩ := hok
  obtain rfl := Option.some.inj hs
  intro u k hk
  dsimp only at hk
  by_cases hu : u = t
  · subst hu
    rw [Function.update_self] at hk
    obtain rfl := Option.some.inj hk
    exact ⟨hne, parked_stackAllocate hsize func arg _⟩
  · rw [Function.update_of_ne hu] at hk
    obtain ⟨hcurrent, hparked⟩ := hinv u k hk
    exact ⟨hcurrent, hparked.of_owned fun x hx =>
      stackAllocate_outside hsize func arg _ fun ht => hu (hx.ne ht)⟩

theorem exists_context (hok : Ok K s (.switch t)) :
    ∃ k, Function.update s.saved s.current (some (contextOf s.cpu)) t = some k := by
  by_cases ht : t = s.current
  · exact ⟨_, by rw [ht, Function.update_self]⟩
  · rw [Function.update_of_ne ht]
    exact Option.ne_none_iff_exists'.mp (hok.2.2.2.2.resolve_left ht)

theorem inv_switch (hok : Ok K s (.switch t)) (hinv : Inv K s)
    (hs : step K s (.switch t) = some s') : Inv K s' := by
  obtain ⟨cpu, hcpu, rfl⟩ := Option.map_eq_some_iff.mp hs
  obtain ⟨kt, hkt⟩ := exists_context hok
  obtain ⟨cpu', hcpu', -, hsame⟩ := switch_steps hok (parked_saved hok hinv hkt)
  obtain rfl := Option.some.inj (hcpu.symm.trans hcpu')
  intro u k hk
  have hu : u ≠ t := by
    rintro rfl
    simp at hk
  refine ⟨hu, ?_⟩
  dsimp only at hk
  rw [Function.update_of_ne hu] at hk
  exact (parked_saved hok hinv hk).of_owned (hsame u hu)

theorem step_inv (a : Act T) (hinv : Inv K s) (hok : Ok K s a) (hs : step K s a = some s') :
    Inv K s' := by
  cases a with
  | compute cpu =>
    obtain rfl := Option.some.inj hs
    intro u k hk
    obtain ⟨hne, hparked⟩ := hinv u k hk
    exact ⟨hne, hparked.of_owned fun x hx => hok u x (Option.ne_none_iff_exists'.mpr ⟨k, hk⟩) hx⟩
  | fork t func arg => exact inv_fork func arg hok hinv hs
  | delete t =>
    obtain rfl := Option.some.inj hs
    intro u k hk
    by_cases hu : u = t
    · subst hu
      simp at hk
    · exact hinv u k ((Function.update_of_ne hu ..).symm.trans hk)
  | switch t => exact inv_switch hok hinv hs

theorem inv_of_reach {s₀ : System T} (h₀ : ∀ t, s₀.saved t = none)
    (h : Reach (step K) (Ok K) s₀ s) : Inv K s := by
  refine h.invariant (fun t k hk => ?_) fun s a s' hi hok hs => step_inv a hi hok hs
  simp [h₀] at hk

/-- A call of `SWITCH` returns in the thread it is given. -/
theorem step_switch (hinv : Inv K s) (hok : Ok K s (.switch t))
    (hk : Function.update s.saved s.current (some (contextOf s.cpu)) t = some k) :
    ∃ s', step K s (.switch t) = some s' ∧ s'.current = t ∧ Resumes K t k s'.cpu ∧
      ∀ u ≠ t, s'.saved u = Function.update s.saved s.current (some (contextOf s.cpu)) u := by
  obtain ⟨cpu, hcpu, hresumes, -⟩ := switch_steps hok (parked_saved hok hinv hk)
  refine ⟨_, by rw [step, hcpu, Option.map_some], rfl, hresumes, fun u hu => ?_⟩
  exact Function.update_of_ne hu ..

/-- The thread is neither deleted nor run. -/
def Away (K : Kernel T) (u : T) (s : System T) (a : Act T) : Prop :=
  Ok K s a ∧ a ≠ .delete u ∧ a ≠ .switch u

theorem step_away {a : Act T} (hinv : Inv K s) (hk : s.saved u = some k) (haway : Away K u s a)
    (hs : step K s a = some s') : s'.saved u = some k := by
  obtain ⟨hok, hdelete, hswitch⟩ := haway
  cases a with
  | compute cpu =>
    obtain rfl := Option.some.inj hs
    exact hk
  | fork t func arg =>
    obtain ⟨-, hnew, -⟩ := hok
    obtain rfl := Option.some.inj hs
    exact (Function.update_of_ne (fun hu => by simp [← hu, hk] at hnew) ..).trans hk
  | delete t =>
    obtain rfl := Option.some.inj hs
    exact (Function.update_of_ne (fun hu => hdelete (congrArg Act.delete hu.symm)) ..).trans hk
  | switch t =>
    obtain ⟨cpu, -, rfl⟩ := Option.map_eq_some_iff.mp hs
    exact (Function.update_of_ne (fun hu => hswitch (congrArg Act.switch hu.symm)) ..).trans
      ((Function.update_of_ne (hinv u k hk).1 ..).trans hk)

theorem reach_away {s₁ : System T} (hinv : Inv K s₁) (hk : s₁.saved u = some k)
    (h : Reach (step K) (Away K u) s₁ s) : Inv K s ∧ s.saved u = some k := by
  refine h.invariant (I := fun s => Inv K s ∧ s.saved u = some k) ⟨hinv, hk⟩
    fun s a s' hi hok hs => ?_
  exact ⟨step_inv a hi.1 hok.1 hs, step_away hi.1 hi.2 hok hs⟩

theorem switch_back {s₁ : System T} (hinv : Inv K s₁) (hk : s₁.saved u = some k)
    (h : Reach (step K) (Away K u) s₁ s) (hok : Ok K s (.switch u)) :
    ∃ s', step K s (.switch u) = some s' ∧ Resumes K u k s'.cpu := by
  obtain ⟨hinv', hk'⟩ := reach_away hinv hk h
  have hne := (hinv' u k hk').1
  obtain ⟨s', hs', -, hresumes, -⟩ :=
    step_switch hinv' hok ((Function.update_of_ne hne ..).trans hk')
  exact ⟨s', hs', hresumes⟩

/-- A thread that calls `SWITCH` comes back from the call with its registers and its stack, at
once where it was switched to itself, and otherwise when it is switched to again, whatever the
other threads have done in between. -/
theorem switch_returns {s₀ : System T} (h₀ : ∀ t, s₀.saved t = none)
    (h : Reach (step K) (Ok K) s₀ s) (hok : Ok K s (.switch t)) :
    ∃ s₁, step K s (.switch t) = some s₁ ∧
      (t = s.current → Resumes K s.current (contextOf s.cpu) s₁.cpu) ∧
      (t ≠ s.current → ∀ s₂, Reach (step K) (Away K s.current) s₁ s₂ →
        Ok K s₂ (.switch s.current) →
        ∃ s₃, step K s₂ (.switch s.current) = some s₃ ∧
          Resumes K s.current (contextOf s.cpu) s₃.cpu) := by
  have hinv := inv_of_reach h₀ h
  obtain ⟨k, hk⟩ := exists_context hok
  obtain ⟨s₁, hs₁, -, hresumes, hsaved⟩ := step_switch hinv hok hk
  refine ⟨s₁, hs₁, fun ht => ?_, fun ht s₂ hreach hback => ?_⟩
  · subst ht
    rw [Function.update_self] at hk
    obtain rfl := Option.some.inj hk
    exact hresumes
  · refine switch_back (step_inv _ hinv hok hs₁) ?_ hreach hback
    rw [hsaved _ ht.symm, Function.update_self]

def smallCode : Code := fun a =>
  let code := if a.toNat < 0x200 then switchCode 0x800 ++ [.ret] else rootCode
  code[a.toNat % 0x100]?.map fun i => (i, a + 1)

def twoThreads : Kernel Bool where
  record t := if t then 0x1100 else 0x1000
  stack t := if t then 0x20000 else 0x10000
  size _ := 4 * stackSize
  eaxSave := 0x800
  code := smallCode
  switch := 0x100
  switchRet := 0x11a
  threadRoot := 0x200
  threadRootEnd := 0x209
  threadBegin := 0x300
  threadFinish := 0x400
  record_aligned := by decide
  stack_aligned := by decide
  save_aligned := by decide
  stack_fits := by decide
  records_apart := by unfold Apart; decide
  record_stack := by unfold Apart; decide
  stacks_apart := by unfold Apart; decide
  save_record := by unfold Apart; decide
  save_stack := by unfold Apart; decide
  switch_lies := by
    repeat refine .cons rfl ?_
    exact .nil _
  switch_ret := ⟨_, rfl⟩
  root_lies := by
    repeat refine .cons rfl ?_
    exact .nil _

def atSwitch (t : Bool) : System Bool where
  cpu := ⟨fun r => if r = .esp then 0x10100 else 7, 0x100,
    storeWord (storeWord (fun _ => 0) 0x10104 0x1000) 0x10108 (twoThreads.record t)⟩
  current := false
  saved _ := none

theorem onStack_atSwitch : OnStack twoThreads false 0x10100 := by
  constructor <;> decide

def callBack (cpu : State) : State :=
  ⟨fun r => if r = .esp then 0x20100 else 9, 0x100,
    storeWord (storeWord cpu.mem 0x20104 0x1100) 0x20108 0x1000⟩

theorem callBack_ok {s : System Bool} (hcurrent : s.current = true) (hother : s.saved true = none)
    (hmain : s.saved false ≠ none) : Ok twoThreads s (.compute (callBack s.cpu)) ∧
      Ok twoThreads { s with cpu := callBack s.cpu } (.switch false) := by
  refine ⟨fun t x ht hx => ?_, rfl, ?_, ?_, ?_, .inr hmain⟩
  · -- the arguments of the call are on the stack of the other thread
    cases t with
    | true => exact absurd hother ht
    | false =>
      have hlt : x < 0x20104 := by
        unfold Owns twoThreads recordSize stackSize at hx
        dsimp only at hx
        rcases hx with ⟨-, hx⟩ | ⟨-, hx⟩
        · exact hx.trans (by decide)
        · exact hx.trans (by decide)
      simp only [callBack]
      rw [storeWord_outside (by omega), storeWord_outside (by omega)]
  · change OnStack twoThreads s.current 0x20100
    rw [hcurrent]
    constructor <;> decide
  · change wordAt (storeWord (storeWord s.cpu.mem 0x20104 0x1100) 0x20108 0x1000) 0x20104 =
      twoThreads.record s.current
    rw [wordAt_storeWord_of_ne (by omega) (by omega) (by omega), wordAt_storeWord_self, hcurrent]
    rfl
  · exact wordAt_storeWord_self ..

theorem switched {K : Kernel Bool} {s s' : System Bool} {t : Bool}
    (h : step K s (.switch t) = some s') : s'.current = t ∧ s'.saved =
      Function.update (Function.update s.saved s.current (some (contextOf s.cpu))) t none := by
  obtain ⟨cpu, -, rfl⟩ := Option.map_eq_some_iff.mp h
  exact ⟨rfl, rfl⟩

/-- The main thread is switched to itself; and it forks the other one and switches to it, which
then switches back. -/
theorem switch_returns_main :
    (∃ s₁, step twoThreads (atSwitch false) (.switch false) = some s₁ ∧
      Resumes twoThreads false (contextOf (atSwitch false).cpu) s₁.cpu) ∧
    ∃ s₁ s₂ s₃ s₄, step twoThreads (atSwitch true) (.fork true 0x500 7) = some s₁ ∧
      step twoThreads s₁ (.switch true) = some s₂ ∧
      step twoThreads s₂ (.compute (callBack s₂.cpu)) = some s₃ ∧
      step twoThreads s₃ (.switch false) = some s₄ ∧
      Resumes twoThreads false (contextOf s₁.cpu) s₄.cpu := by
  constructor
  · obtain ⟨s₁, hs₁, hself, -⟩ := @switch_returns Bool twoThreads (atSwitch false) false _
      (atSwitch false) (fun _ => rfl) .refl ⟨rfl, onStack_atSwitch, rfl, rfl, .inl rfl⟩
    exact ⟨s₁, hs₁, hself rfl⟩
  · have hfork : Ok twoThreads (atSwitch true) (.fork true 0x500 7) := ⟨by decide, rfl, rfl⟩
    obtain ⟨s₂, hs₂, -, hback⟩ := @switch_returns Bool twoThreads _ true _ (atSwitch true)
      (fun _ => rfl) (.single hfork rfl)
      ⟨rfl, onStack_atSwitch, by decide +kernel, by decide +kernel, .inr (Option.some_ne_none _)⟩
    obtain ⟨hcurrent, hsaved⟩ := switched hs₂
    obtain ⟨hcompute, hswitch⟩ := callBack_ok hcurrent (by rw [hsaved]; rfl)
      (by rw [hsaved]; exact Option.some_ne_none _)
    obtain ⟨s₄, hs₄, hresumes⟩ := hback (by decide) _
      (.single ⟨hcompute, by simp, by simp⟩ rfl) hswitch
    exact ⟨_, s₂, _, s₄, rfl, hs₂, rfl, hs₄, hresumes⟩

/-- The C calling convention, for a function with `n` arguments on the stack: what the caller
finds after the call, where `c` is the state in which the function is entered. -/
structure Returned (K : Kernel T) (t : T) (n : ℕ) (c c' : State) : Prop where
  eip : c'.eip = wordAt c.mem (c.regs .esp).toNat
  esp : c'.regs .esp = c.regs .esp + 4
  saved : ∀ r ∈ [Reg.ebx, .esi, .edi, .ebp], c'.regs r = c.regs r
  stack : ∀ x, (c.regs .esp).toNat + 4 + 4 * n ≤ x → x < K.stack t + K.size t →
    c'.mem x = c.mem x

omit [DecidableEq T] in
theorem threadRoot_frame {c : State} (heip : c.eip = K.threadRoot)
    (haligned : (c.regs .esp).toNat % 4 = 0) (hroom : 12 ≤ (c.regs .esp).toNat) :
    ∃ c₁ next, steps K.code 4 c = some c₁ ∧ c₁.eip = c.regs .ecx ∧
      (c₁.regs .esp).toNat + 12 = (c.regs .esp).toNat ∧
      wordAt c₁.mem (c₁.regs .esp).toNat = next ∧
      wordAt c₁.mem ((c₁.regs .esp).toNat + 4) = c.regs .edx ∧
      c₁.regs .esi = c.regs .esi ∧ c₁.regs .edi = c.regs .edi ∧
      Lies K.code next (rootCode.drop 4) K.threadRootEnd := by
  obtain _ | ⟨hpush, hlies⟩ := K.root_lies
  obtain _ | ⟨hmov, hlies⟩ := hlies
  obtain _ | ⟨hpushArg, hlies⟩ := hlies
  obtain _ | ⟨hbegin, hlies⟩ := hlies
  have hstraight : steps K.code 3 c = _ :=
    steps_straight (.cons hpush (.cons hmov (.cons hpushArg (.nil _))))
      (by simp [Instr.straight]) heip
  have h₁ : (c.regs .esp - 4).toNat = (c.regs .esp).toNat - 4 := by bv_omega
  have h₂ : (c.regs .esp - 4 - 4).toNat = (c.regs .esp).toNat - 8 := by bv_omega
  have h₃ : (c.regs .esp - 4 - 4 - 4).toNat = (c.regs .esp).toNat - 12 := by bv_omega
  refine ⟨_, _, (steps_add 3 1 c).trans (by
    rw [hstraight, Option.bind_some, steps_one, step_call (by exact hbegin)]), ?_, ?_, ?_, ?_, ?_,
    ?_, hlies⟩
  all_goals
    simp only [List.foldl_cons, List.foldl_nil, State.effect, State.pushWord_regs,
      State.pushWord_mem, State.set_regs, State.set_mem, reduceCtorEq, if_true, if_false, h₁, h₂,
      h₃]
  · omega
  · exact wordAt_storeWord_self ..
  · rw [wordAt_storeWord_of_ne (by omega) (by omega) (by omega),
      show (c.regs .esp).toNat - 12 + 4 = (c.regs .esp).toNat - 8 by omega, wordAt_storeWord_self]

/-- From `c` on, the code enters `begin`, then `func` with `arg` on the stack, then `finish`, each
when the one before has returned. -/
def Calls (K : Kernel T) (t : T) (c : State) (begin func arg finish : Word) : Prop :=
  ∃ c₁, steps K.code 4 c = some c₁ ∧ c₁.eip = begin ∧
    ∀ c₁', Returned K t 0 c₁ c₁' →
      ∃ c₂, X86.step K.code c₁' = some c₂ ∧ c₂.eip = func ∧
        wordAt c₂.mem ((c₂.regs .esp).toNat + 4) = arg ∧
        ∀ c₂', Returned K t 1 c₂ c₂' →
          ∃ c₃, X86.step K.code c₂' = some c₃ ∧ c₃.eip = finish

omit [DecidableEq T] in
theorem threadRoot_calls {c : State} (heip : c.eip = K.threadRoot)
    (haligned : (c.regs .esp).toNat % 4 = 0) (hroom : 12 ≤ (c.regs .esp).toNat)
    (htop : (c.regs .esp).toNat ≤ K.stack t + K.size t) :
    Calls K t c (c.regs .ecx) (c.regs .esi) (c.regs .edx) (c.regs .edi) := by
  obtain ⟨c₁, next, hsteps, heip₁, hesp, hnext, harg, hesi, hedi, hlies⟩ :=
    threadRoot_frame heip haligned hroom
  obtain _ | ⟨hfunc, hlies⟩ := hlies
  obtain _ | ⟨hfinish, -⟩ := hlies
  refine ⟨c₁, hsteps, heip₁, fun c₁' hret => ?_⟩
  have hesp' : (c₁'.regs .esp).toNat = (c₁.regs .esp).toNat + 4 := by
    have := hret.esp
    bv_omega
  have hpushed : (c₁'.regs .esp - 4).toNat = (c₁.regs .esp).toNat := by bv_omega
  refine ⟨_, step_call (by rw [hret.eip, hnext]; exact hfunc), ?_, ?_, fun c₂' hret' => ?_⟩
  · rw [← hesi]
    exact hret.saved .esi (by decide)
  · simp only [State.pushWord_regs, State.pushWord_mem, if_true, hpushed]
    rw [wordAt_storeWord_of_ne (by omega) (by omega) (by omega), ← harg]
    exact wordAt_congr fun j hj => hret.stack _ (by omega) (by omega)
  · have hback : c₂'.eip = _ := hret'.eip
    simp only [State.pushWord_regs, State.pushWord_mem, if_true, hpushed,
      wordAt_storeWord_self] at hback
    refine ⟨_, step_call (by rw [hback]; exact hfinish), ?_⟩
    rw [← hedi, ← hret.saved .edi (by decide)]
    exact hret'.saved .edi (by decide)

/-- A forked thread, when it is first switched to, is entered at `ThreadRoot`, on the stack that
`StackAllocate` has prepared and right above the word that it was entered by.  `ThreadRoot`
calls `ThreadBegin`, then the function of the thread with its argument, and `ThreadFinish` when
the function returns. -/
theorem fork_calls {s₀ s₁ s₂ : System T} {func arg : Word} (h₀ : ∀ t, s₀.saved t = none)
    (h : Reach (step K) (Ok K) s₀ s) (hfork : Ok K s (.fork t func arg))
    (hs₁ : step K s (.fork t func arg) = some s₁) (haway : Reach (step K) (Away K t) s₁ s₂)
    (hswitch : Ok K s₂ (.switch t)) :
    ∃ s₃, step K s₂ (.switch t) = some s₃ ∧ s₃.cpu.eip = K.threadRoot ∧
      (s₃.cpu.regs .esp).toNat = stackTop K t + 4 ∧
      Calls K t s₃.cpu K.threadBegin func arg K.threadFinish := by
  have hinv := inv_of_reach h₀ h
  have hsaved : s₁.saved t = some (initialContext K t func arg s.cpu.mem) := by
    obtain rfl := Option.some.inj hs₁
    exact Function.update_self ..
  obtain ⟨s₃, hs₃, hresumes⟩ := switch_back (step_inv _ hinv hfork hs₁) hsaved haway hswitch
  obtain ⟨-, -, hsize⟩ := hfork
  have hfits := K.stack_fits t
  have htop := toNat_stackTop hsize
  have hon := onStack_stackTop hsize
  have hesp : (s₃.cpu.regs .esp).toNat = stackTop K t + 4 := by
    have hadd : s₃.cpu.regs .esp = BitVec.ofNat 32 (stackTop K t) + 4 := hresumes.esp
    have hroom := hon.top
    bv_omega
  have hbottom := hon.bottom
  have haligned := hon.aligned
  have hroom := hon.top
  rw [htop] at hbottom haligned hroom
  have heip := hresumes.eip.trans (pc_initialContext hsize func arg s.cpu.mem)
  have hcalls := threadRoot_calls (t := t) heip (by omega)
    (by unfold stackTop stackSize at hesp; omega) (by omega)
  rw [hresumes.regs .ecx (by decide), hresumes.regs .esi (by decide),
    hresumes.regs .edx (by decide), hresumes.regs .edi (by decide)] at hcalls
  exact ⟨s₃, hs₃, heip, hesp, hcalls⟩

/-- The main thread forks the other one and switches to it. -/
theorem fork_calls_main : ∃ s₁ s₃,
    step twoThreads (atSwitch true) (.fork true 0x500 7) = some s₁ ∧
    step twoThreads s₁ (.switch true) = some s₃ ∧ s₃.cpu.eip = twoThreads.threadRoot ∧
    (s₃.cpu.regs .esp).toNat = stackTop twoThreads true + 4 ∧
    Calls twoThreads true s₃.cpu twoThreads.threadBegin 0x500 7 twoThreads.threadFinish := by
  obtain ⟨s₃, hs₃, hcalls⟩ := @fork_calls Bool twoThreads (atSwitch true) true _
    (atSwitch true) _ _ 0x500 7 (fun _ => rfl) .refl ⟨by decide, rfl, rfl⟩ rfl .refl
    ⟨rfl, onStack_atSwitch, by decide +kernel, by decide +kernel, .inr (Option.some_ne_none _)⟩
  exact ⟨_, s₃, rfl, hs₃, hcalls⟩

end

end Nachos.KernelSwitch
