import Nachos.Alu

namespace Nachos
open TwosComplement

/-- Where an instruction word of MIPS I says which operation it is: in its bits 26 to 31; in its
bits 0 to 5 if these are 0, which is `SPECIAL`; in its bits 16 to 20 if they are 1, `BCOND`. -/
inductive Code where
  | major (c : BitVec 6)
  | special (c : BitVec 6)
  | bcond (c : BitVec 5)
  deriving DecidableEq, Repr

/-- The code that the architecture gives to an operation. -/
def OpCode.code : OpCode → Option Code
  | .j => some (.major 0b000010)
  | .jal => some (.major 0b000011)
  | .beq => some (.major 0b000100)
  | .bne => some (.major 0b000101)
  | .blez => some (.major 0b000110)
  | .bgtz => some (.major 0b000111)
  | .addi => some (.major 0b001000)
  | .addiu => some (.major 0b001001)
  | .slti => some (.major 0b001010)
  | .sltiu => some (.major 0b001011)
  | .andi => some (.major 0b001100)
  | .ori => some (.major 0b001101)
  | .xori => some (.major 0b001110)
  | .lui => some (.major 0b001111)
  | .lb => some (.major 0b100000)
  | .lh => some (.major 0b100001)
  | .lwl => some (.major 0b100010)
  | .lw => some (.major 0b100011)
  | .lbu => some (.major 0b100100)
  | .lhu => some (.major 0b100101)
  | .lwr => some (.major 0b100110)
  | .sb => some (.major 0b101000)
  | .sh => some (.major 0b101001)
  | .swl => some (.major 0b101010)
  | .sw => some (.major 0b101011)
  | .swr => some (.major 0b101110)
  | .sll => some (.special 0b000000)
  | .srl => some (.special 0b000010)
  | .sra => some (.special 0b000011)
  | .sllv => some (.special 0b000100)
  | .srlv => some (.special 0b000110)
  | .srav => some (.special 0b000111)
  | .jr => some (.special 0b001000)
  | .jalr => some (.special 0b001001)
  | .syscall => some (.special 0b001100)
  | .mfhi => some (.special 0b010000)
  | .mthi => some (.special 0b010001)
  | .mflo => some (.special 0b010010)
  | .mtlo => some (.special 0b010011)
  | .mult => some (.special 0b011000)
  | .multu => some (.special 0b011001)
  | .div => some (.special 0b011010)
  | .divu => some (.special 0b011011)
  | .add => some (.special 0b100000)
  | .addu => some (.special 0b100001)
  | .sub => some (.special 0b100010)
  | .subu => some (.special 0b100011)
  | .and => some (.special 0b100100)
  | .or => some (.special 0b100101)
  | .xor => some (.special 0b100110)
  | .nor => some (.special 0b100111)
  | .slt => some (.special 0b101010)
  | .sltu => some (.special 0b101011)
  | .bltz => some (.bcond 0b00000)
  | .bgez => some (.bcond 0b00001)
  | .bltzal => some (.bcond 0b10000)
  | .bgezal => some (.bcond 0b10001)
  | .rfe | .unimp | .res => none

def codedOps : List OpCode :=
  [.add, .addi, .addiu, .addu, .and, .andi, .beq, .bgez, .bgezal, .bgtz, .blez, .bltz, .bltzal,
    .bne, .div, .divu, .j, .jal, .jalr, .jr, .lb, .lbu, .lh, .lhu, .lui, .lw, .lwl, .lwr, .mfhi,
    .mflo, .mthi, .mtlo, .mult, .multu, .nor, .or, .ori, .sb, .sh, .sll, .sllv, .slt, .slti,
    .sltiu, .sltu, .sra, .srav, .srl, .srlv, .sub, .subu, .sw, .swl, .swr, .xor, .xori, .syscall]

/-- The codes that are reserved.  The other ones without an operation here are those of the
coprocessors, `BREAK`, and what is left of `BCOND`. -/
def Code.reserved : Code → Bool
  | .major c => c ∈ [0b100111, 0b101100, 0b101101, 0b101111] ∨ (20 ≤ c ∧ c ≤ 31) ∨
      (52 ≤ c ∧ c ≤ 55) ∨ 60 ≤ c
  | .special c => c ∈ [0b000001, 0b000101, 0b001010, 0b001011, 0b001110, 0b001111, 0b101000,
      0b101001] ∨ (20 ≤ c ∧ c ≤ 23) ∨ (28 ≤ c ∧ c ≤ 31) ∨ 44 ≤ c
  | .bcond _ => false

def Code.opCode (c : Code) : OpCode :=
  (codedOps.find? fun op => op.code = some c).getD (if c.reserved then .res else .unimp)

def codeOf (w : BitVec 32) : Code :=
  if w.extractLsb' 26 6 = 0 then .special (w.extractLsb' 0 6)
  else if w.extractLsb' 26 6 = 1 then .bcond (w.extractLsb' 16 5)
  else .major (w.extractLsb' 26 6)

def regField (w : BitVec 32) (start : ℕ) : Fin numGPRegs :=
  ⟨(w.extractLsb' start 5).toNat, (w.extractLsb' start 5).isLt⟩

/-- What an instruction has besides its registers: the target of a jump, a shift amount, or an
immediate with a sign. -/
def Code.extra (w : BitVec 32) : Code → Int
  | .special _ => (w.extractLsb' 6 5).toNat
  | .bcond _ => (w.extractLsb' 0 16).toInt
  | .major c => if c = 2 ∨ c = 3 then (w.extractLsb' 0 26).toNat else (w.extractLsb' 0 16).toInt

/-- An instruction word as the architecture reads it. -/
def mipsDecode (w : BitVec 32) : Instruction where
  opCode := (codeOf w).opCode
  rs := regField w 21
  rt := regField w 16
  rd := regField w 11
  extra := (codeOf w).extra w

namespace Instruction

theorem unsigned_toInt (x : BitVec 32) : unsigned x.toInt = x.toNat := by
  rw [← toNat_word, word_toInt]

theorem toNat_bits (w : BitVec 32) (start len : ℕ) :
    (w.extractLsb' start len).toNat = w.toNat / 2 ^ start % 2 ^ len := by
  rw [BitVec.extractLsb'_toNat, Nat.shiftRight_eq_div_pow]

theorem field_eq (w : BitVec 32) (start : ℕ) : field w.toNat start = regField w start :=
  Fin.ext (toNat_bits w start 5).symm

theorem opTable_major : ∀ c : BitVec 6, c ≠ 0 → c ≠ 1 →
    opTable.getD c.toNat (.op .res, .ifmt) =
      (.op (Code.major c).opCode, if c = 2 ∨ c = 3 then .jfmt else .ifmt) := by
  decide

theorem specialTable_code : ∀ c : BitVec 6,
    specialTable.getD c.toNat .res = (Code.special c).opCode := by
  decide

theorem bcond_code : ∀ c : BitVec 5,
    (match c.toNat with
      | 0x00 => OpCode.bltz
      | 0x01 => .bgez
      | 0x10 => .bltzal
      | 0x11 => .bgezal
      | _ => .unimp) = (Code.bcond c).opCode := by
  decide

theorem signedImmediate_toNat (w : BitVec 32) :
    signedImmediate w.toNat = (w.extractLsb' 0 16).toInt := by
  have himm : immediate w.toInt = w.extractLsb' 0 16 := by
    rw [immediate, word_toInt]
    exact BitVec.eq_of_toNat_eq (by rw [toNat_bits, BitVec.toNat_setWidth, pow_zero, Nat.div_one])
  rw [← unsigned_toInt, signedImmediate_eq, himm]

/-- `Decode` reads every word as the architecture does. -/
theorem decode_toInt (w : BitVec 32) : decode w.toInt = mipsDecode w := by
  have hmajor : w.toNat / 2 ^ 26 % 64 = (w.extractLsb' 26 6).toNat := (toNat_bits w 26 6).symm
  have himm := signedImmediate_toNat w
  unfold signedImmediate at himm
  dsimp only at himm
  simp only [decode, mipsDecode, codeOf, unsigned_toInt, field_eq, hmajor]
  by_cases h0 : w.extractLsb' 26 6 = 0
  · have hcode := specialTable_code (w.extractLsb' 0 6)
    rw [toNat_bits, pow_zero, Nat.div_one] at hcode
    simp only [h0, if_true, Code.extra, toNat_bits]
    rw [← hcode]
    rfl
  by_cases h1 : w.extractLsb' 26 6 = 1
  · have hcode := bcond_code (w.extractLsb' 16 5)
    rw [toNat_bits] at hcode
    simp only [h1, if_neg (show ¬(1 : BitVec 6) = 0 by decide), if_true, Code.extra, ← hcode,
      ← himm]
    rfl
  · simp only [if_neg h0, if_neg h1, opTable_major _ h0 h1, Code.extra, ← himm]
    by_cases hjump : w.extractLsb' 26 6 = 2 ∨ w.extractLsb' 26 6 = 3
    · simp only [if_pos hjump]
      rw [toNat_bits, pow_zero, Nat.div_one]
    · simp only [if_neg hjump]

end Instruction
end Nachos
