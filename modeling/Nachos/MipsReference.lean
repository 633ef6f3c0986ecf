import Nachos.MipsEncoding
import Nachos.Multiplication
import Nachos.Unaligned
import Nachos.VirtualMemory

namespace Nachos
open TwosComplement Buffers ByteMerge Machine

inductive Reg where
  | gpr (r : Fin numGPRegs)
  | hi
  | lo
  deriving DecidableEq, Repr

def linkReg : Fin numGPRegs := ⟨r31, by decide⟩

def region : BitVec 32 := 0xf0000000

def Reg.index : Reg → ℕ
  | .gpr r => r
  | .hi => hiReg
  | .lo => loReg

/-- A MIPS I processor as a program sees it, with loads that are done at once.  `npc` is the
address of the instruction after the next one. -/
structure Cpu where
  regs : Reg → BitVec 32
  pc : BitVec 32
  npc : BitVec 32
  mem : Bytes

/-- What an instruction does.  `go` writes registers and goes on at an address after the delay
slot; the value of a load is computed from the bytes read; `merge` writes a word computed from
the one that is there. -/
inductive Action where
  | go (writes : List (Reg × BitVec 32)) (target : BitVec 32)
  | load (addr : BitVec 32) (w : Width) (rt : Fin numGPRegs) (value : BitVec 32 → BitVec 32)
  | store (addr : BitVec 32) (w : Width) (value : BitVec 32)
  | merge (addr : BitVec 32) (value : BitVec 32 → BitVec 32)
  | trap (e : ExceptionType)
  | unpredictable

inductive CpuStep where
  | next (c : Cpu)
  | trap (e : ExceptionType)
  | unpredictable

namespace Cpu

/-- Register 0 stays 0. -/
def set (c : Cpu) (r : Reg) (v : BitVec 32) : Cpu :=
  if r.index = 0 then c else { c with regs := Function.update c.regs r v }

def setAll (c : Cpu) (writes : List (Reg × BitVec 32)) : Cpu :=
  writes.foldl (fun c w => c.set w.1 w.2) c

def read (c : Cpu) (addr : BitVec 32) (w : Width) : BitVec 32 :=
  BitVec.ofNat 32 (littleEndian (shift c.mem addr.toNat) w.size)

def write (c : Cpu) (addr : BitVec 32) (w : Width) (value : BitVec 32) : Cpu :=
  { c with mem := bcopy (fun j => .ofBitVec (byte value j)) c.mem addr.toNat w.size }

/-- On to the instruction in the delay slot, and after it to `target`. -/
def goTo (c : Cpu) (target : BitVec 32) : Cpu := { c with pc := c.npc, npc := target }

def Accessible (n : ℕ) (addr : BitVec 32) (w : Width) : Prop :=
  addr.toNat % w.size = 0 ∧ addr.toNat < n

instance (n : ℕ) (addr : BitVec 32) (w : Width) : Decidable (Accessible n addr w) :=
  inferInstanceAs (Decidable (_ ∧ _))

def product (p : BitVec 64) : List (Reg × BitVec 32) :=
  [(.hi, p.extractLsb' 32 32), (.lo, p.extractLsb' 0 32)]

/-- The instructions that are not of the ALU. -/
def otherAction (c : Cpu) (i : Instruction) (raw : BitVec 32) : Action :=
  let rs := c.regs (.gpr i.rs)
  let rt := c.regs (.gpr i.rt)
  let offset := (raw.setWidth 16).signExtend 32
  let after := c.npc + 4
  let branch (taken : Bool) (writes : List (Reg × BitVec 32)) : Action :=
    .go writes (if taken then c.npc + (offset <<< 2) else after)
  let jump := (c.npc &&& region) ||| ((raw.setWidth 26).setWidth 32 <<< 2)
  let link : List (Reg × BitVec 32) := [(.gpr linkReg, after)]
  let addr := rs + offset
  let k := addr.toNat % 4
  let around := addr - BitVec.ofNat 32 k
  match i.opCode with
  | .beq => branch (rs == rt) []
  | .bne => branch (rs != rt) []
  | .blez => branch (decide (rs.toInt ≤ 0)) []
  | .bgtz => branch (decide (0 < rs.toInt)) []
  | .bltz => branch rs.msb []
  | .bgez => branch (!rs.msb) []
  | .bltzal => if i.rs = linkReg then .unpredictable else branch rs.msb link
  | .bgezal => if i.rs = linkReg then .unpredictable else branch (!rs.msb) link
  | .j => .go [] jump
  | .jal => .go link jump
  | .jr => .go [] rs
  | .jalr => if i.rs = i.rd then .unpredictable else .go [(.gpr i.rd, after)] rs
  | .mult => .go (product (BitVec.ofInt 64 (rs.toInt * rt.toInt))) after
  | .multu => .go (product (BitVec.ofNat 64 (rs.toNat * rt.toNat))) after
  | .div =>
    if rt = 0 ∨ rs.toInt = intMin ∧ rt.toInt = -1 then .unpredictable
    else .go [(.lo, rs.sdiv rt), (.hi, rs.srem rt)] after
  | .divu => if rt = 0 then .unpredictable else .go [(.lo, rs / rt), (.hi, rs % rt)] after
  | .mfhi => .go [(.gpr i.rd, c.regs .hi)] after
  | .mflo => .go [(.gpr i.rd, c.regs .lo)] after
  | .mthi => .go [(.hi, rs)] after
  | .mtlo => .go [(.lo, rs)] after
  | .lb => .load addr .byte i.rt fun x => (x.setWidth 8).signExtend 32
  | .lbu => .load addr .byte i.rt fun x => (x.setWidth 8).setWidth 32
  | .lh => .load addr .half i.rt fun x => (x.setWidth 16).signExtend 32
  | .lhu => .load addr .half i.rt fun x => (x.setWidth 16).setWidth 32
  | .lw => .load addr .word i.rt fun x => x
  | .lwl => .load around .word i.rt fun x => above (3 - k) rt x
  | .lwr => .load around .word i.rt fun x => below (4 - k) k rt x
  | .sb => .store addr .byte rt
  | .sh => .store addr .half rt
  | .sw => .store addr .word rt
  | .swl => .merge around fun x => below (k + 1) (3 - k) x rt
  | .swr => .merge around fun x => above k x rt
  | .syscall => .trap .syscallException
  | .res => .trap .illegalInstrException
  | _ => .unpredictable

def action (c : Cpu) (i : Instruction) (raw : BitVec 32) : Action :=
  match mipsAlu i.opCode (c.regs (.gpr i.rs)) (c.regs (.gpr i.rt)) (raw.setWidth 16)
      (shiftAmount raw.toInt) with
  | some (.value v) => .go [(.gpr i.dest, v)] (c.npc + 4)
  | some .overflow => .trap .overflowException
  | none => c.otherAction i raw

def perform (n : ℕ) (c : Cpu) : Action → CpuStep
  | .go writes target => .next ((c.setAll writes).goTo target)
  | .load addr w rt value =>
    if Accessible n addr w then
      .next ((c.set (.gpr rt) (value (c.read addr w))).goTo (c.npc + 4))
    else .trap .addressErrorException
  | .store addr w value =>
    if Accessible n addr w then .next ((c.write addr w value).goTo (c.npc + 4))
    else .trap .addressErrorException
  | .merge addr value =>
    if Accessible n addr .word then
      .next ((c.write addr .word (value (c.read addr .word))).goTo (c.npc + 4))
    else .trap .addressErrorException
  | .trap e => .trap e
  | .unpredictable => .unpredictable

def fetched (c : Cpu) : BitVec 32 := c.read c.pc .word

def instruction (c : Cpu) : Instruction := mipsDecode c.fetched

/-- One instruction, with a memory of `n` bytes. -/
def step (n : ℕ) (c : Cpu) : CpuStep :=
  if Accessible n c.pc .word then c.perform n (c.action c.instruction c.fetched)
  else .trap .addressErrorException

/-- The instruction is one of those that the simulator does in its own way. -/
def DepartsOn (c : Cpu) (i : Instruction) (raw : BitVec 32) : Prop :=
  SignFilled i.opCode (c.regs (.gpr i.rs)) (c.regs (.gpr i.rt)) (shiftAmount raw.toInt) ∨
    (i.opCode = .j ∨ i.opCode = .jal) ∧ (c.npc + 4) &&& region ≠ c.npc &&& region

def Departs (c : Cpu) : Prop := c.DepartsOn c.instruction c.fetched

/-- The instructions of a run, none of which departs from the architecture. -/
inductive Runs (n : ℕ) : Cpu → List Instruction → Cpu → Prop
  | nil (c : Cpu) : Runs n c [] c
  | cons {c c' c'' : Cpu} {is : List Instruction} : ¬c.Departs → c.step n = .next c' →
      Runs n c' is c'' → Runs n c (c.instruction :: is) c''

end Cpu

def branchOps : List OpCode := [.beq, .bgez, .bgezal, .bgtz, .blez, .bltz, .bltzal, .bne]

def accessOps : List OpCode :=
  [.lb, .lbu, .lh, .lhu, .lw, .lwl, .lwr, .sb, .sh, .sw, .swl, .swr]

namespace Instruction

theorem opTable_getD_mem (raw : Int) :
    opTable.getD (unsigned raw / 2 ^ 26 % 64) (.op .res, .ifmt) ∈ opTable := by
  have hk : unsigned raw / 2 ^ 26 % 64 < opTable.length := Nat.mod_lt _ (by decide)
  rw [List.getD_eq_getElem _ _ hk]
  exact List.getElem_mem hk

theorem specialTable_getD_mem (raw : Int) :
    specialTable.getD (unsigned raw % 64) .res ∈ specialTable := by
  have hk : unsigned raw % 64 < specialTable.length := Nat.mod_lt _ (by decide)
  rw [List.getD_eq_getElem _ _ hk]
  exact List.getElem_mem hk

/-- Branches, loads and stores have an immediate with a sign. -/
theorem decode_signed {raw : Int} (h : (decode raw).opCode ∈ branchOps ++ accessOps) :
    (decode raw).extra = (immediate raw).toInt := by
  rw [← signedImmediate_eq]
  have hmem := opTable_getD_mem raw
  have hformat : ∀ p ∈ opTable,
      p.2 = .ifmt ∨ p.1 = .special ∨ p.1 = .op .j ∨ p.1 = .op .jal := by decide
  have hspecial : ∀ op ∈ specialTable, op ∉ branchOps ++ accessOps := by decide
  unfold decode at h ⊢
  dsimp only at h ⊢
  generalize opTable.getD (unsigned raw / 2 ^ 26 % 64) (.op .res, .ifmt) = p at *
  obtain ⟨info, f⟩ := p
  rcases hformat _ hmem with hf | hf | hf | hf
  · cases hf
    rfl
  · cases hf
    exact absurd h (hspecial _ (specialTable_getD_mem raw))
  all_goals
    cases hf
    dsimp only at h
    exact absurd h (by decide)

theorem decode_jump {raw : Int}
    (h : (decode raw).opCode = .j ∨ (decode raw).opCode = .jal) :
    (decode raw).extra = (unsigned raw % 2 ^ 26 : ℕ) := by
  have hmem := opTable_getD_mem raw
  have hformat : ∀ p ∈ opTable, p.1 = .op .j ∨ p.1 = .op .jal → p.2 = .jfmt := by decide
  have hspecial : ∀ op ∈ specialTable, ¬(op = .j ∨ op = .jal) := by decide
  unfold decode at h ⊢
  dsimp only at h ⊢
  generalize opTable.getD (unsigned raw / 2 ^ 26 % 64) (.op .res, .ifmt) = p at *
  obtain ⟨info, f⟩ := p
  cases info with
  | op op =>
    have hf : f = .jfmt := by
      apply hformat _ hmem
      simpa using h
    rw [hf]
  | special =>
    exact absurd h (hspecial _ (specialTable_getD_mem raw))
  | bcond =>
    dsimp only at h
    split at h <;> simp at h

end Instruction

/-- The switch does what the architecture says.  A value that is loaded may have any bits above
the ones read; an address that is not aligned may be found out before the access. -/
inductive Matches (i : Instruction) : Effect → Action → Prop
  | go (writes : List (Reg × BitVec 32)) (target : BitVec 32) :
      Matches i (.goOn (writes.map fun w => (w.1.index, w.2.toInt)) target.toInt)
        (.go writes target)
  | load (addr : BitVec 32) (w : Width) {extend : Int → Int} {value : BitVec 32 → BitVec 32} :
      (∀ v x, IsInt v → unsigned v % 256 ^ w.size = x.toNat → extend v = (value x).toInt) →
      Matches i (.load addr.toInt w.size extend) (.load addr w i.rt value)
  | misaligned {addr : BitVec 32} {w : Width} (value : BitVec 32 → BitVec 32) :
      addr.toNat % w.size ≠ 0 →
      Matches i (.raise .addressErrorException addr.toInt) (.load addr w i.rt value)
  | store (addr : BitVec 32) (w : Width) (value : BitVec 32) :
      Matches i (.store addr.toInt w.size value.toInt) (.store addr w value)
  | merge (addr : BitVec 32) {insert : Int → Int} {value : BitVec 32 → BitVec 32} :
      (∀ x, insert x.toInt = (value x).toInt) →
      Matches i (.merge addr.toInt insert) (.merge addr value)
  | trap (e : ExceptionType) (badVAddr : Int) : Matches i (.raise e badVAddr) (.trap e)
  | unpredictable (e : Effect) : Matches i e .unpredictable

namespace Cpu

def operands (c : Cpu) (i : Instruction) : Operands where
  rs := (c.regs (.gpr i.rs)).toInt
  rt := (c.regs (.gpr i.rt)).toInt
  hi := (c.regs .hi).toInt
  lo := (c.regs .lo).toInt
  nextPC := c.npc.toInt
  old := (c.regs (.gpr i.rt)).toInt

end Cpu

section Words

theorem wrap_toInt_add (x y : BitVec 32) : wrap (x.toInt + y.toInt) = (x + y).toInt := by
  rw [wrap_add, word_toInt, word_toInt]

theorem wrap_toInt_add_four (x : BitVec 32) : wrap (x.toInt + 4) = (x + 4).toInt :=
  wrap_toInt_add x 4

theorem signBit_toInt (x : BitVec 32) : signBit x.toInt = x.msb := by
  rw [signBit, word_toInt]

theorem toInt_eq_zero {x : BitVec 32} : x.toInt = 0 ↔ x = 0 := by
  rw [← BitVec.toInt_inj]
  rfl

theorem wrap_toNat (x : BitVec 32) : wrap x.toNat = x.toInt := by
  rw [← toInt_word, word, BitVec.ofInt_natCast, BitVec.ofNat_toNat, BitVec.setWidth_eq]

theorem toInt_sdiv {x y : BitVec 32} (h : ¬(x.toInt = intMin ∧ y.toInt = -1)) :
    (x.sdiv y).toInt = x.toInt.tdiv y.toInt := by
  apply BitVec.toInt_sdiv_of_ne_or_ne
  by_contra hboth
  rw [not_or, not_not, not_not] at hboth
  exact h ⟨by rw [hboth.1]; decide, by rw [hboth.2]; decide⟩

theorem toInt_around (x : BitVec 32) :
    (x - BitVec.ofNat 32 (x.toNat % 4)).toInt = x.toInt - x.toInt % 4 := by
  have hx := x.isLt
  have hsub : (x - BitVec.ofNat 32 (x.toNat % 4)).toNat = x.toNat - x.toNat % 4 := by
    rw [BitVec.toNat_sub, BitVec.toNat_ofNat]
    omega
  rw [BitVec.toInt_eq_toNat_cond, BitVec.toInt_eq_toNat_cond, hsub]
  split_ifs <;> omega

theorem toInt_emod_four (x : BitVec 32) : x.toInt % 4 = (x.toNat % 4 : ℕ) := by
  have hx := x.isLt
  rw [BitVec.toInt_eq_toNat_cond]
  split_ifs <;> omega

theorem shiftOf_toInt (x : BitVec 32) : Instruction.shiftOf x.toInt = 3 - x.toNat % 4 := by
  rw [Instruction.shiftOf, toInt_emod_four]
  omega

theorem emod_size_toInt (x : BitVec 32) (w : Width) :
    x.toInt % w.size = 0 ↔ x.toNat % w.size = 0 := by
  have hx := x.isLt
  rw [BitVec.toInt_eq_toNat_cond]
  cases w <;> simp only [Width.size] <;> split_ifs <;> omega

section Merge
open Instruction
variable (x y addr : BitVec 32)

theorem shiftOf_lt : shiftOf addr.toInt < 4 := by
  rw [shiftOf_toInt]
  omega

theorem isInt_merge (k : ℕ) :
    IsInt (insertLeft x.toInt y.toInt k) ∧
      IsInt (insertRight x.toInt y.toInt k) ∧
      IsInt (storeLeft x.toInt y.toInt k) ∧
      IsInt (storeRight x.toInt y.toInt k) := by
  unfold insertLeft insertRight storeLeft storeRight
  refine ⟨?_, ?_, ?_, ?_⟩ <;> split <;> exact isInt_toInt _

theorem insertLeft_toInt :
    insertLeft x.toInt y.toInt (shiftOf addr.toInt) =
      (above (3 - addr.toNat % 4) x y).toInt := by
  rw [← toInt_word_of_isInt (isInt_merge ..).1, word_insertLeft _ _ (shiftOf_lt addr),
    shiftOf_toInt, word_toInt, word_toInt]

theorem insertRight_toInt :
    insertRight x.toInt y.toInt (shiftOf addr.toInt) =
      (below (4 - addr.toNat % 4) (addr.toNat % 4) x y).toInt := by
  rw [← toInt_word_of_isInt (isInt_merge ..).2.1,
    word_insertRight _ _ (shiftOf_lt addr), shiftOf_toInt, word_toInt, word_toInt]
  congr 2 <;> omega

theorem storeLeft_toInt :
    storeLeft x.toInt y.toInt (shiftOf addr.toInt) =
      (below (addr.toNat % 4 + 1) (3 - addr.toNat % 4) y x).toInt := by
  rw [← toInt_word_of_isInt (isInt_merge ..).2.2.1,
    word_storeLeft _ _ (shiftOf_lt addr), shiftOf_toInt, word_toInt, word_toInt]
  congr 2
  omega

theorem storeRight_toInt :
    storeRight x.toInt y.toInt (shiftOf addr.toInt) =
      (above (addr.toNat % 4) y x).toInt := by
  rw [← toInt_word_of_isInt (isInt_merge ..).2.2.2,
    word_storeRight _ _ (shiftOf_lt addr), shiftOf_toInt, word_toInt, word_toInt]
  congr 2
  omega

end Merge

theorem eq_toInt_of_read {v : Int} {x : BitVec 32} (h : IsInt v)
    (hv : unsigned v % 256 ^ 4 = x.toNat) : v = x.toInt := by
  rw [← toInt_word_of_isInt h]
  congr 1
  apply BitVec.eq_of_toNat_eq
  rw [toNat_word, ← hv]
  unfold unsigned
  omega

theorem and_low (x : BitVec 32) (n : ℕ) :
    x &&& BitVec.ofNat 32 (2 ^ n - 1) = (x.setWidth n).setWidth 32 := by
  apply BitVec.eq_of_getLsbD_eq
  intro j hj
  rw [BitVec.getLsbD_and, BitVec.getLsbD_ofNat, Nat.testBit_two_pow_sub_one,
    BitVec.getLsbD_setWidth, BitVec.getLsbD_setWidth, decide_eq_true hj]
  exact Bool.and_comm ..

theorem signExtend_low (x : BitVec 32) {n : ℕ} (hn : 0 < n) :
    (x.setWidth n).signExtend 32 =
      if x.getLsbD (n - 1) then x ||| ~~~BitVec.ofNat 32 (2 ^ n - 1)
      else x &&& BitVec.ofNat 32 (2 ^ n - 1) := by
  apply BitVec.eq_of_getLsbD_eq
  intro j hj
  have hmsb : (x.setWidth n).msb = x.getLsbD (n - 1) := by
    rw [BitVec.msb_eq_getLsbD_last, BitVec.getLsbD_setWidth]
    simp [hn]
  have hmask : (BitVec.ofNat 32 (2 ^ n - 1))[j] = decide (j < n) := by
    rw [← BitVec.getLsbD_eq_getElem, BitVec.getLsbD_ofNat, Nat.testBit_two_pow_sub_one]
    simp [hj]
  rw [BitVec.getLsbD_signExtend, hmsb, BitVec.getLsbD_setWidth]
  by_cases hlow : j < n <;> cases hbit : x.getLsbD (n - 1) <;> simp [hj, hlow, hmask]

theorem setWidth_of_read {v : Int} {x : BitVec 32} {n : ℕ} (h : unsigned v % 2 ^ n = x.toNat) :
    (word v).setWidth n = x.setWidth n := by
  apply BitVec.eq_of_toNat_eq
  rw [BitVec.toNat_setWidth, BitVec.toNat_setWidth, toNat_word, ← h, Nat.mod_mod]

theorem bitAnd_ne_zero (v : Int) {k : ℕ} (hk : k < 32) {t : Int}
    (ht : word t = BitVec.twoPow 32 k) : bitAnd v t ≠ 0 ↔ (word v).getLsbD k = true := by
  rw [bitAnd, ht, BitVec.and_twoPow]
  by_cases hbit : (word v).getLsbD k = true
  · rw [if_pos hbit]
    refine iff_of_true (fun h => ?_) hbit
    have hzero : BitVec.twoPow 32 k = 0 := BitVec.toInt_inj.mp (h.trans BitVec.toInt_zero.symm)
    have hget := congrArg (BitVec.getLsbD · k) hzero
    simp [hk] at hget
  · simp [hbit]

theorem zeroExtend_read {v t : Int} {x : BitVec 32} {n : ℕ} (h : unsigned v % 2 ^ n = x.toNat)
    (ht : word t = BitVec.ofNat 32 (2 ^ n - 1)) :
    bitAnd v t = ((x.setWidth n).setWidth 32).toInt := by
  rw [bitAnd, ht, and_low, setWidth_of_read h]

theorem signExtend_read {v s t u : Int} {x : BitVec 32} {n : ℕ} (hn : 0 < n) (hle : n < 32)
    (h : unsigned v % 2 ^ n = x.toNat) (hs : word s = BitVec.twoPow 32 (n - 1))
    (ht : word t = ~~~BitVec.ofNat 32 (2 ^ n - 1)) (hu : word u = BitVec.ofNat 32 (2 ^ n - 1)) :
    (if bitAnd v s ≠ 0 then bitOr v t else bitAnd v u) =
      ((x.setWidth n).signExtend 32).toInt := by
  rw [← setWidth_of_read h, signExtend_low _ hn, apply_ite BitVec.toInt,
    if_congr (bitAnd_ne_zero v (by omega) hs) rfl rfl, bitOr, ht, bitAnd, hu]

end Words

section Action
variable {i : Instruction} {o : Operands}

theorem matches_goOn {writes : List (Reg × BitVec 32)} {target : BitVec 32}
    {ws : List (ℕ × Int)} {pcAfter : Int}
    (hws : ws = writes.map fun w => (w.1.index, w.2.toInt)) (hpc : pcAfter = target.toInt) :
    Matches i (.goOn ws pcAfter) (.go writes target) := by
  subst hws hpc
  exact .go writes target

theorem branch_toInt {npc offset : BitVec 32} (hpc : o.nextPC = npc.toInt)
    (hextra : i.extra = offset.toInt) {taken taken' : Bool} (htaken : taken = taken') :
    i.branch o taken = (if taken' then npc + (offset <<< 2) else npc + 4).toInt := by
  rw [Instruction.branch, hpc, hextra, indexToAddr, shiftLeft, word_toInt, wrap_toInt_add,
    wrap_toInt_add_four, htaken, apply_ite BitVec.toInt]

theorem matches_aligned {addr : BitVec 32} {w : Width} {size : Int} (hsize : (w.size : Int) = size)
    {extend : Int → Int} {value : BitVec 32 → BitVec 32}
    (h : ∀ v x, IsInt v → unsigned v % 256 ^ w.size = x.toNat → extend v = (value x).toInt) :
    Matches i (if addr.toInt % size ≠ 0 then .raise .addressErrorException addr.toInt
      else .load addr.toInt size extend) (.load addr w i.rt value) := by
  subst hsize
  by_cases hal : addr.toInt % w.size = 0
  · rw [if_neg (not_not.mpr hal)]
    exact .load addr w h
  · rw [if_pos hal]
    exact .misaligned value ((emod_size_toInt addr w).not.mp hal)

theorem matches_product {p : Int × Int} {x : BitVec 64} (hp : word p.1 ++ word p.2 = x)
    (h₁ : IsInt p.1) (h₂ : IsInt p.2) (npc : BitVec 32) :
    Matches i (.goOn [(hiReg, p.1), (loReg, p.2)] (wrap (npc.toInt + 4)))
      (.go (Cpu.product x) (npc + 4)) := by
  subst hp
  refine matches_goOn ?_ (wrap_toInt_add_four npc)
  have hhi : (word p.1 ++ word p.2).extractLsb' 32 32 = _ := BitVec.extractLsb'_append_eq_left
  have hlo : (word p.1 ++ word p.2).extractLsb' 0 32 = _ := BitVec.extractLsb'_append_eq_right
  rw [Cpu.product, hhi, hlo, List.map_cons, List.map_cons, List.map_nil, toInt_word_of_isInt h₁,
    toInt_word_of_isInt h₂]
  rfl

theorem isInt_mult (a b : Int) (signedArith : Bool) :
    IsInt (mult a b signedArith).1 ∧ IsInt (mult a b signedArith).2 := by
  unfold mult
  split_ifs
  · exact ⟨by decide, by decide⟩
  · dsimp only
    split_ifs <;> exact ⟨isInt_toInt _, isInt_toInt _⟩

end Action

namespace Cpu

section Matches
variable (c : Cpu) (raw : BitVec 32) {i : Instruction}

theorem matches_branch (h : i.opCode ∈ branchOps)
    (hextra : i.extra = ((raw.setWidth 16).signExtend 32).toInt) :
    Matches i (i.effect (c.operands i)) (c.otherAction i raw) := by
  -- where the branch goes, for each way to say whether it is taken
  have hgo : ∀ {taken taken' : Bool}, taken = taken' → i.branch (c.operands i) taken =
      (if taken' then c.npc + (((raw.setWidth 16).signExtend 32) <<< 2) else c.npc + 4).toInt :=
    fun ht => branch_toInt rfl hextra ht
  have hlink : wrap (c.npc.toInt + 4) = (c.npc + 4).toInt := wrap_toInt_add_four c.npc
  have hself : i.rs = linkReg ↔ (i.rs : ℕ) = r31 := Fin.ext_iff
  have hsign := signBit_toInt (c.regs (.gpr i.rs))
  unfold Instruction.effect otherAction
  dsimp only
  cases hop : i.opCode
  case beq =>
    refine matches_goOn rfl (hgo ?_)
    simp only [operands, BitVec.toInt_inj, beq_eq_decide]
  case bne =>
    refine matches_goOn rfl (hgo ?_)
    simp only [operands, ne_eq, BitVec.toInt_inj, bne, beq_eq_decide, decide_not]
  case blez | bgtz => exact matches_goOn rfl (hgo rfl)
  case bltz => exact matches_goOn rfl (hgo hsign)
  case bgez => exact matches_goOn rfl (hgo (congrArg (!·) hsign))
  case bltzal | bgezal =>
    by_cases hrs : i.rs = linkReg
    · simp only [if_pos hrs]
      exact .unpredictable _
    · simp only [if_neg hrs, if_neg (hself.not.mp hrs)]
      refine matches_goOn (congrArg (fun x => [(r31, x)]) hlink) (hgo ?_)
      simp only [operands, hsign]
  all_goals
    rw [hop] at h
    exact absurd h (by decide)

theorem matches_access (h : i.opCode ∈ accessOps)
    (hextra : i.extra = ((raw.setWidth 16).signExtend 32).toInt) :
    Matches i (i.effect (c.operands i)) (c.otherAction i raw) := by
  have haddr : i.address (c.operands i) =
      (c.regs (.gpr i.rs) + (raw.setWidth 16).signExtend 32).toInt := by
    rw [Instruction.address, hextra]
    exact wrap_toInt_add ..
  unfold Instruction.effect otherAction
  dsimp only
  rw [haddr]
  generalize c.regs (.gpr i.rs) + (raw.setWidth 16).signExtend 32 = addr
  -- the word that the halves `LWL`, `LWR`, `SWL` and `SWR` access
  have haround : addr.toInt - addr.toInt % 4 = (addr - BitVec.ofNat 32 (addr.toNat % 4)).toInt :=
    (toInt_around addr).symm
  cases hop : i.opCode
  case lb =>
    refine .load addr .byte fun v x _ hv => ?_
    exact signExtend_read (by decide) (by decide) hv (by decide) (by decide) (by decide)
  case lbu =>
    refine .load addr .byte fun v x _ hv => ?_
    exact zeroExtend_read hv (by decide)
  case lh =>
    refine matches_aligned (w := .half) rfl fun v x _ hv => ?_
    exact signExtend_read (by decide) (by decide) hv (by decide) (by decide) (by decide)
  case lhu =>
    refine matches_aligned (w := .half) rfl fun v x _ hv => ?_
    exact zeroExtend_read hv (by decide)
  case lw => exact matches_aligned (w := .word) rfl fun v x hint hv => eq_toInt_of_read hint hv
  case lwl =>
    dsimp only
    rw [haround]
    refine .load _ .word fun v x hint hv => ?_
    rw [eq_toInt_of_read hint hv]
    exact insertLeft_toInt ..
  case lwr =>
    dsimp only
    rw [haround]
    refine .load _ .word fun v x hint hv => ?_
    rw [eq_toInt_of_read hint hv]
    exact insertRight_toInt ..
  case sb => exact .store addr .byte _
  case sh => exact .store addr .half _
  case sw => exact .store addr .word _
  case swl =>
    dsimp only
    rw [haround]
    exact .merge _ fun x => storeLeft_toInt ..
  case swr =>
    dsimp only
    rw [haround]
    exact .merge _ fun x => storeRight_toInt ..
  all_goals
    rw [hop] at h
    exact absurd h (by decide)

theorem matches_jump (h : i.opCode = .j ∨ i.opCode = .jal)
    (hextra : i.extra = (raw.toNat % 2 ^ 26 : ℕ))
    (hregion : (c.npc + 4) &&& region = c.npc &&& region) :
    Matches i (i.effect (c.operands i)) (c.otherAction i raw) := by
  have hindex : word (raw.toNat % 2 ^ 26 : ℕ) = (raw.setWidth 26).setWidth 32 := by
    apply BitVec.eq_of_toNat_eq
    rw [toNat_word, BitVec.toNat_setWidth, BitVec.toNat_setWidth]
    unfold unsigned
    omega
  have hlink : wrap (c.npc.toInt + 4) = (c.npc + 4).toInt := wrap_toInt_add_four c.npc
  have htarget : bitOr (bitAnd (wrap (c.npc.toInt + 4)) 0xf0000000) (indexToAddr i.extra) =
      ((c.npc &&& region) ||| ((raw.setWidth 26).setWidth 32 <<< 2)).toInt := by
    rw [hextra, hlink, bitOr, bitAnd, indexToAddr, shiftLeft, word_toInt, word_toInt, word_toInt,
      hindex, ← hregion]
    rfl
  unfold Instruction.effect otherAction
  rcases h with hop | hop
  · simp only [hop]
    exact matches_goOn rfl htarget
  · simp only [hop]
    exact matches_goOn (congrArg (fun x => [(r31, x)]) hlink) htarget

theorem matches_rest (h : i.opCode ∉ branchOps ++ accessOps ++ [.j, .jal]) :
    Matches i (i.effect (c.operands i)) (c.otherAction i raw) := by
  have hnext : wrap (c.npc.toInt + 4) = (c.npc + 4).toInt := wrap_toInt_add_four c.npc
  have hproduct := mult_is_product (c.regs (.gpr i.rs)) (c.regs (.gpr i.rt))
  unfold Instruction.effect otherAction
  dsimp only
  cases hop : i.opCode
  case jr => exact matches_goOn rfl rfl
  case jalr =>
    by_cases hrs : i.rs = i.rd
    · simp only [if_pos hrs]
      exact .unpredictable _
    · simp only [if_neg hrs]
      exact matches_goOn (congrArg (fun x => [((i.rd : ℕ), x)]) hnext) rfl
  case mult =>
    obtain ⟨h₁, h₂⟩ := isInt_mult (c.operands i).rs (c.operands i).rt true
    refine matches_product ?_ h₁ h₂ c.npc
    rw [← hproduct.1, BitVec.ofInt_toInt]
    rfl
  case multu =>
    obtain ⟨h₁, h₂⟩ := isInt_mult (c.operands i).rs (c.operands i).rt false
    refine matches_product ?_ h₁ h₂ c.npc
    rw [← hproduct.2, BitVec.ofNat_toNat, BitVec.setWidth_eq]
    rfl
  case div =>
    -- where the architecture leaves a quotient open, the simulator may do anything
    by_cases hbad : c.regs (.gpr i.rt) = 0 ∨
        (c.regs (.gpr i.rs)).toInt = intMin ∧ (c.regs (.gpr i.rt)).toInt = -1
    · simp only [if_pos hbad]
      exact .unpredictable _
    · obtain ⟨hzero, hquot⟩ := not_or.mp hbad
      have hne : (c.operands i).rt ≠ 0 := fun h => hzero (toInt_eq_zero.mp h)
      have hquot' : ¬((c.operands i).rs = intMin ∧ (c.operands i).rt = -1) := hquot
      simp only [if_neg hbad, if_neg hne, if_neg hquot']
      refine matches_goOn ?_ hnext
      rw [List.map_cons, List.map_cons, List.map_nil, toInt_sdiv hquot, BitVec.toInt_srem]
      rfl
  case divu =>
    by_cases hzero : c.regs (.gpr i.rt) = 0
    · simp only [if_pos hzero]
      exact .unpredictable _
    · have hne : (c.regs (.gpr i.rt)).toNat ≠ 0 := fun h => hzero (BitVec.eq_of_toNat_eq h)
      simp only [if_neg hzero, operands, Instruction.unsigned_toInt, if_neg hne]
      rw [← BitVec.toNat_udiv, ← BitVec.toNat_umod, wrap_toNat, wrap_toNat]
      exact matches_goOn rfl hnext
  case mfhi | mflo | mthi | mtlo => exact matches_goOn rfl hnext
  case syscall | res => exact .trap _ _
  all_goals
    first
      | exact .unpredictable _
      | exact absurd (by rw [hop]; decide) h

/-- The switch does what the architecture says of any word, unless it departs from it. -/
theorem matches_action (hi : i = .decode raw.toInt) (hd : ¬c.DepartsOn i raw) :
    Matches i (i.effect (c.operands i)) (c.action i raw) := by
  obtain ⟨hfilled, hregion⟩ := not_or.mp hd
  have hsa : shiftAmount raw.toInt < 32 := Nat.mod_lt _ (by decide)
  have himm : immediate raw.toInt = raw.setWidth 16 := by rw [immediate, word_toInt]
  have hextra : i.opCode ∈ branchOps ++ accessOps →
      i.extra = ((raw.setWidth 16).signExtend 32).toInt := by
    subst hi
    intro h
    rw [Instruction.decode_signed h, himm, BitVec.toInt_signExtend_of_le (by decide)]
  have himmediate : i.opCode ∈ immediateOps → i.extra = (raw.setWidth 16).toInt := by
    subst hi
    intro h
    rw [Instruction.decode_immediate h, Instruction.signedImmediate_eq, himm]
  have hshift : i.opCode ∈ shiftOps → i.extra = shiftAmount raw.toInt := by
    subst hi
    exact Instruction.decode_shift
  have hindex : i.opCode = .j ∨ i.opCode = .jal → i.extra = (raw.toNat % 2 ^ 26 : ℕ) := by
    subst hi
    intro h
    rw [Instruction.decode_jump h, Instruction.unsigned_toInt]
  unfold action
  cases halu : mipsAlu i.opCode (c.regs (.gpr i.rs)) (c.regs (.gpr i.rt)) (raw.setWidth 16)
      (shiftAmount raw.toInt) with
  | none =>
    dsimp only
    by_cases hbranch : i.opCode ∈ branchOps
    · exact matches_branch c raw hbranch (hextra (List.mem_append_left _ hbranch))
    by_cases haccess : i.opCode ∈ accessOps
    · exact matches_access c raw haccess (hextra (List.mem_append_right _ haccess))
    by_cases hjump : i.opCode = .j ∨ i.opCode = .jal
    · refine matches_jump c raw hjump (hindex hjump) ?_
      by_contra hne
      exact hregion ⟨hjump, hne⟩
    · refine matches_rest c raw fun h => ?_
      simp only [List.mem_append, List.mem_cons, List.not_mem_nil, or_false] at h
      tauto
  | some r =>
    rcases mipsAlu_simulatedAs hsa halu with ⟨hsim, -⟩ | ⟨-, -, -, -, h, -⟩
    · have heffect := effect_alu (o := c.operands i) (isInt_toInt _) (isInt_toInt _) himmediate
        hshift (by simpa only [operands, word_toInt] using hsim)
      rw [heffect]
      cases r with
      | value v => exact matches_goOn rfl (wrap_toInt_add_four c.npc)
      | overflow => exact .trap _ _
    · exact absurd h hfilled

/-- Where the switch departs from the architecture, the instruction is to go on. -/
theorem DepartsOn.action (h : c.DepartsOn i raw) :
    ∃ writes target, c.action i raw = .go writes target := by
  unfold Cpu.action otherAction
  rcases h with ⟨-, ⟨hop, -⟩ | ⟨hop, -⟩⟩ | ⟨hop | hop, -⟩
  all_goals
    simp only [hop, mipsAlu]
    exact ⟨_, _, rfl⟩

end Matches

end Cpu

end Nachos
