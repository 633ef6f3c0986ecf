import Nachos.Lib.Buffers

namespace X86
open Buffers

abbrev Word := BitVec 32

inductive Reg where
  | eax | ebx | ecx | edx | esi | edi | ebp | esp
  deriving DecidableEq, Repr

structure State where
  regs : Reg → Word
  eip : Word
  mem : Bytes

/-- `load` and `store` have a displacement and a base register, `loadAt` and `storeAt` the
address of a variable. -/
inductive Instr where
  | mov (src dst : Reg)
  | load (disp : ℕ) (base dst : Reg)
  | store (src : Reg) (disp : ℕ) (base : Reg)
  | loadAt (addr : ℕ) (dst : Reg)
  | storeAt (src : Reg) (addr : ℕ)
  | push (src : Reg)
  | pop (dst : Reg)
  | call (target : Reg)
  | ret
  deriving DecidableEq, Repr

def storeWord (m : Bytes) (a : ℕ) (v : Word) : Bytes := bcopy (byteOf v) m a 4

theorem storeWord_outside {m : Bytes} {a x : ℕ} (h : x < a ∨ a + 4 ≤ x) (v : Word) :
    storeWord m a v x = m x := bcopy_outside h

theorem wordAt_storeWord_self (m : Bytes) (a : ℕ) (v : Word) : wordAt (storeWord m a v) a = v :=
  wordAt_of_bytes fun _ hk => bcopy_inside hk

/-- Aligned words are the same or apart. -/
theorem wordAt_storeWord_of_ne {m : Bytes} {a b : ℕ} (ha : a % 4 = 0) (hb : b % 4 = 0)
    (hne : b ≠ a) (v : Word) : wordAt (storeWord m a v) b = wordAt m b :=
  wordAt_congr fun _ hk => storeWord_outside (by omega) v

namespace State

def set (s : State) (r : Reg) (v : Word) : State := { s with regs := Function.update s.regs r v }

def setMem (s : State) (a : ℕ) (v : Word) : State := { s with mem := storeWord s.mem a v }

def address (s : State) (disp : ℕ) (base : Reg) : ℕ := (s.regs base).toNat + disp

def pushWord (s : State) (v : Word) : State :=
  (s.setMem (s.regs .esp - 4).toNat v).set .esp (s.regs .esp - 4)

/-- What an instruction does to registers and memory, but for calls and returns. -/
def effect (s : State) : Instr → State
  | .mov src dst => s.set dst (s.regs src)
  | .load disp base dst => s.set dst (wordAt s.mem (s.address disp base))
  | .store src disp base => s.setMem (s.address disp base) (s.regs src)
  | .loadAt addr dst => s.set dst (wordAt s.mem addr)
  | .storeAt src addr => s.setMem addr (s.regs src)
  | .push src => s.pushWord (s.regs src)
  | .pop dst => (s.set .esp (s.regs .esp + 4)).set dst (wordAt s.mem (s.regs .esp).toNat)
  | .call _ | .ret => s

/-- An instruction, with the address of the one after it. -/
def exec (s : State) (next : Word) : Instr → State
  | .call target => { s.pushWord next with eip := s.regs target }
  | .ret =>
    { s.set .esp (s.regs .esp + 4) with eip := wordAt s.mem (s.regs .esp).toNat }
  | i => { s.effect i with eip := next }

@[simp] theorem set_mem (s : State) (r : Reg) (v : Word) : (s.set r v).mem = s.mem := rfl

@[simp] theorem set_regs (s : State) (r : Reg) (v : Word) (q : Reg) :
    (s.set r v).regs q = if q = r then v else s.regs q := Function.update_apply ..

@[simp] theorem setMem_regs (s : State) (a : ℕ) (v : Word) : (s.setMem a v).regs = s.regs := rfl

@[simp] theorem setMem_mem (s : State) (a : ℕ) (v : Word) :
    (s.setMem a v).mem = storeWord s.mem a v := rfl

@[simp] theorem pushWord_regs (s : State) (v : Word) (q : Reg) :
    (s.pushWord v).regs q = if q = .esp then s.regs .esp - 4 else s.regs q := set_regs ..

@[simp] theorem pushWord_mem (s : State) (v : Word) :
    (s.pushWord v).mem = storeWord s.mem (s.regs .esp - 4).toNat v := rfl

end State

abbrev Code := Word → Option (Instr × Word)

def step (code : Code) (s : State) : Option State := (code s.eip).map fun c => s.exec c.2 c.1

def steps (code : Code) : ℕ → State → Option State
  | 0, s => some s
  | n + 1, s => (step code s).bind (steps code n)

/-- The instructions lie one after the other, from one address to another. -/
inductive Lies (code : Code) : Word → List Instr → Word → Prop
  | nil (a : Word) : Lies code a [] a
  | cons {a next b : Word} {i : Instr} {is : List Instr} : code a = some (i, next) →
      Lies code next is b → Lies code a (i :: is) b

def Instr.straight : Instr → Bool
  | .call _ | .ret => false
  | _ => true

variable {code : Code} {a b : Word} {is : List Instr} {s : State}

theorem exec_straight {i : Instr} (h : i.straight = true) (next : Word) :
    s.exec next i = { s.effect i with eip := next } := by
  cases i
  case call | ret => cases h
  all_goals rfl

theorem step_call {r : Reg} {next : Word} (h : code s.eip = some (.call r, next)) :
    step code s = some { s.pushWord next with eip := s.regs r } := by
  rw [step, h]
  rfl

theorem step_ret {next : Word} (h : code s.eip = some (.ret, next)) :
    step code s = some
      { s.set .esp (s.regs .esp + 4) with eip := wordAt s.mem (s.regs .esp).toNat } := by
  rw [step, h]
  rfl

/-- An effect does not depend on the instruction pointer. -/
theorem effect_eip (i : Instr) (x : Word) :
    ({ s with eip := x } : State).effect i = { s.effect i with eip := x } := by
  cases i <;> rfl

theorem steps_add (m n : ℕ) (s : State) :
    steps code (m + n) s = (steps code m s).bind (steps code n) := by
  induction m generalizing s with
  | zero => rw [Nat.zero_add]; rfl
  | succ m ih =>
    rw [Nat.succ_add]
    simp only [steps]
    cases step code s with
    | none => rfl
    | some s' => exact ih s'

theorem steps_one (s : State) : steps code 1 s = step code s := Option.bind_fun_some _

theorem foldl_effect_eip (is : List Instr) (x : Word) :
    is.foldl State.effect { s with eip := x } = { is.foldl State.effect s with eip := x } := by
  induction is generalizing s with
  | nil => rfl
  | cons i is ih => rw [List.foldl_cons, effect_eip, ih, List.foldl_cons]

/-- Straight-line code runs as the sequence of its effects. -/
theorem steps_straight (h : Lies code a is b) (hs : ∀ i ∈ is, i.straight = true)
    (ha : s.eip = a) :
    steps code is.length s = some { is.foldl State.effect s with eip := b } := by
  induction h generalizing s with
  | nil a =>
    subst ha
    rfl
  | @cons a next b i is hcode hrest ih =>
    have hi : i.straight = true := hs i (List.mem_cons_self ..)
    have hstep : step code s = some { s.effect i with eip := next } := by
      rw [step, ha, hcode, Option.map_some, exec_straight hi]
    rw [List.length_cons, steps, hstep, Option.bind_some,
      ih (fun j hj => hs j (List.mem_cons_of_mem _ hj)) rfl, foldl_effect_eip, List.foldl_cons]

end X86
