import Mathlib.Data.List.GetD
import Nachos.RegisterFile

namespace Nachos
open TwosComplement

inductive AluResult where
  | value (v : BitVec 32)
  | overflow
  deriving DecidableEq, Repr

def AluResult.exact (x : Int) : AluResult :=
  if intMin ≤ x ∧ x ≤ intMax then .value (word x) else .overflow

def AluResult.flag (b : Bool) : AluResult := .value (if b then 1 else 0)

/-- The result on the words in `rs` and `rt`, the immediate and the shift amount; `none` stands
for the instructions that are not of the ALU. -/
def mipsAlu (op : OpCode) (rs rt : BitVec 32) (imm : BitVec 16) (sa : ℕ) : Option AluResult :=
  match op with
  | .add => some (.exact (rs.toInt + rt.toInt))
  | .addi => some (.exact (rs.toInt + imm.toInt))
  | .addiu => some (.value (rs + imm.signExtend 32))
  | .addu => some (.value (rs + rt))
  | .and => some (.value (rs &&& rt))
  | .andi => some (.value (rs &&& imm.setWidth 32))
  | .lui => some (.value (imm.setWidth 32 <<< 16))
  | .nor => some (.value (~~~(rs ||| rt)))
  | .or => some (.value (rs ||| rt))
  | .ori => some (.value (rs ||| imm.setWidth 32))
  | .sll => some (.value (rt <<< sa))
  | .sllv => some (.value (rt <<< (rs.toNat % 32)))
  | .slt => some (.flag (rs.slt rt))
  | .slti => some (.flag (rs.slt (imm.signExtend 32)))
  | .sltiu => some (.flag (rs.ult (imm.signExtend 32)))
  | .sltu => some (.flag (rs.ult rt))
  | .sra => some (.value (rt.sshiftRight sa))
  | .srav => some (.value (rt.sshiftRight (rs.toNat % 32)))
  | .srl => some (.value (rt >>> sa))
  | .srlv => some (.value (rt >>> (rs.toNat % 32)))
  | .sub => some (.exact (rs.toInt - rt.toInt))
  | .subu => some (.value (rs - rt))
  | .xor => some (.value (rs ^^^ rt))
  | .xori => some (.value (rs ^^^ imm.setWidth 32))
  | _ => none

def immediate (raw : Int) : BitVec 16 := (word raw).setWidth 16

def shiftAmount (raw : Int) : ℕ := unsigned raw / 2 ^ 6 % 32

def immediateOps : List OpCode := [.addi, .addiu, .andi, .lui, .ori, .slti, .sltiu, .xori]

def shiftOps : List OpCode := [.sll, .sra, .srl]

def Instruction.dest (i : Instruction) : Fin numGPRegs :=
  if i.opCode ∈ immediateOps then i.rt else i.rd

namespace Instruction

def signedImmediate (value : ℕ) : Int :=
  let extra : Int := (value % 2 ^ 16 : ℕ)
  if 0x8000 ≤ extra then bitOr extra 0xffff0000 else extra

theorem decode_cases (raw : Int) :
    (∃ op f, (.op op, f) ∈ opTable ∧ (decode raw).opCode = op ∧
      (f = .ifmt → (decode raw).extra = signedImmediate (unsigned raw))) ∨
    ((decode raw).opCode ∈ specialTable ∧ (decode raw).extra = shiftAmount raw) ∨
    (decode raw).opCode ∈ [.bltz, .bgez, .bltzal, .bgezal, .unimp] := by
  have hk : unsigned raw / 2 ^ 26 % 64 < opTable.length := Nat.mod_lt _ (by decide)
  have hmem : opTable.getD (unsigned raw / 2 ^ 26 % 64) (.op .res, .ifmt) ∈ opTable := by
    rw [List.getD_eq_getElem _ _ hk]
    exact List.getElem_mem hk
  have hformat : ∀ p ∈ opTable, p.1 = .special → p.2 = .rfmt := by decide
  unfold decode
  dsimp only
  generalize opTable.getD (unsigned raw / 2 ^ 26 % 64) (.op .res, .ifmt) = p at hmem ⊢
  obtain ⟨info, f⟩ := p
  cases info with
  | op c =>
    refine .inl ⟨c, f, hmem, rfl, ?_⟩
    rintro rfl
    rfl
  | special =>
    obtain rfl : f = .rfmt := hformat _ hmem rfl
    refine .inr (.inl ⟨?_, rfl⟩)
    have hj : unsigned raw % 64 < specialTable.length := Nat.mod_lt _ (by decide)
    dsimp only
    rw [List.getD_eq_getElem _ _ hj]
    exact List.getElem_mem hj
  | bcond =>
    refine .inr (.inr ?_)
    dsimp only
    split <;> decide

theorem decode_immediate {raw : Int} (h : (decode raw).opCode ∈ immediateOps) :
    (decode raw).extra = signedImmediate (unsigned raw) := by
  have htable : ∀ p ∈ opTable, ∀ op ∈ immediateOps, p.1 = .op op → p.2 = .ifmt := by decide
  have hspecial : ∀ op ∈ specialTable, op ∉ immediateOps := by decide
  have hbranch : ∀ op ∈ [OpCode.bltz, .bgez, .bltzal, .bgezal, .unimp], op ∉ immediateOps := by
    decide
  rcases decode_cases raw with ⟨op, f, hmem, hop, hextra⟩ | ⟨hop, -⟩ | hop
  · exact hextra (htable _ hmem op (hop ▸ h) rfl)
  · exact absurd h (hspecial _ hop)
  · exact absurd h (hbranch _ hop)

theorem decode_shift {raw : Int} (h : (decode raw).opCode ∈ shiftOps) :
    (decode raw).extra = shiftAmount raw := by
  have htable : ∀ p ∈ opTable, ∀ op ∈ shiftOps, p.1 ≠ .op op := by decide
  have hbranch : ∀ op ∈ [OpCode.bltz, .bgez, .bltzal, .bgezal, .unimp], op ∉ shiftOps := by decide
  rcases decode_cases raw with ⟨op, f, hmem, hop, -⟩ | ⟨-, hextra⟩ | hop
  · exact absurd rfl (htable _ hmem op (hop ▸ h))
  · exact hextra
  · exact absurd h (hbranch _ hop)

theorem toNat_immediate (raw : Int) : (immediate raw).toNat = unsigned raw % 2 ^ 16 := by
  rw [immediate, BitVec.toNat_setWidth, toNat_word]

theorem signedImmediate_eq (raw : Int) :
    signedImmediate (unsigned raw) = (immediate raw).toInt := by
  have himm := toNat_immediate raw
  have hlt : unsigned raw % 2 ^ 16 < 2 ^ 16 := Nat.mod_lt _ (by decide)
  rw [signedImmediate, BitVec.toInt_eq_toNat_cond, himm]
  generalize unsigned raw % 2 ^ 16 = x at hlt ⊢
  split_ifs with h₁ h₂ h₂
  · omega
  · have hor : word x ||| word 0xffff0000 = word (x - 2 ^ 16) := by
      apply BitVec.eq_of_toNat_eq
      rw [BitVec.toNat_or, toNat_word, toNat_word, toNat_word,
        show unsigned (0xffff0000 : Int) = 0xffff <<< 16 from rfl,
        show unsigned (x : Int) = x by unfold unsigned; omega, Nat.or_comm,
        ← Nat.shiftLeft_add_eq_or_of_lt hlt, Nat.shiftLeft_eq]
      unfold unsigned
      omega
    rw [bitOr, hor, toInt_word, wrap]
    omega
  · rfl
  · omega

/-- The op code whose result the switch computes. -/
def simulatedAs : OpCode → OpCode
  | .srl => .sra
  | .srlv => .srav
  | op => op

end Instruction

def AluResult.effect (d : ℕ) (pcAfter : Int) : AluResult → Effect
  | .value v => .goOn [(d, v.toInt)] pcAfter
  | .overflow => .raise .overflowException 0

def IsInt (x : Int) : Prop := intMin ≤ x ∧ x ≤ intMax

instance (x : Int) : Decidable (IsInt x) := inferInstanceAs (Decidable (_ ∧ _))

theorem toInt_word_of_isInt {x : Int} (h : IsInt x) : (word x).toInt = x := by
  rw [toInt_word]
  exact wrap_of_range h.1 h.2

theorem isInt_toInt (x : BitVec 32) : IsInt x.toInt := by
  have hlow := x.le_toInt
  have hhigh := x.toInt_lt
  unfold IsInt intMin intMax
  omega

theorem signBit_bitXor {x y : Int} (hx : IsInt x) (hy : IsInt y) :
    signBit (bitXor x y) = (decide (x < 0) != decide (y < 0)) := by
  rw [signBit, bitXor, word_toInt, BitVec.msb_xor, BitVec.msb_eq_toInt, BitVec.msb_eq_toInt,
    toInt_word_of_isInt hx, toInt_word_of_isInt hy]

theorem checked_effect {b : Bool} {x : Int} (hb : b = true ↔ ¬(intMin ≤ x ∧ x ≤ intMax)) (d : ℕ)
    (pcAfter : Int) :
    (if b then Effect.raise .overflowException 0 else .goOn [(d, wrap x)] pcAfter) =
      (AluResult.exact x).effect d pcAfter := by
  unfold AluResult.exact
  by_cases hx : intMin ≤ x ∧ x ≤ intMax
  · rw [if_neg (fun h => hb.mp h hx), if_pos hx, AluResult.effect, toInt_word]
  · rw [if_pos (hb.mpr hx), if_neg hx]
    rfl

theorem add_overflow {x y z : Int} (hx : IsInt x) (hy : IsInt y) (hz : z = x ∨ z = y) :
    (!signBit (bitXor x y) && signBit (bitXor z (wrap (x + y)))) = true ↔
      ¬(intMin ≤ x + y ∧ x + y ≤ intMax) := by
  have hzint : IsInt z := by
    rcases hz with rfl | rfl
    · exact hx
    · exact hy
  rw [signBit_bitXor hx hy, signBit_bitXor hzint (wrap_mem_range _)]
  simp only [Bool.and_eq_true, Bool.not_eq_true', bne_eq_false_iff_eq, bne_iff_ne, ne_eq,
    decide_eq_decide]
  unfold IsInt wrap at *
  unfold intMin intMax at *
  omega

theorem sub_overflow {x y : Int} (hx : IsInt x) (hy : IsInt y) :
    (signBit (bitXor x y) && signBit (bitXor x (wrap (x - y)))) = true ↔
      ¬(intMin ≤ x - y ∧ x - y ≤ intMax) := by
  rw [signBit_bitXor hx hy, signBit_bitXor hx (wrap_mem_range _)]
  simp only [Bool.and_eq_true, bne_iff_ne, ne_eq, decide_eq_decide]
  unfold IsInt wrap at *
  unfold intMin intMax at *
  omega

theorem bitAnd_shamt (x : Int) : bitAnd x 0x1f = ((word x).toNat % 32 : ℕ) := by
  have hand : (word x &&& word 0x1f).toNat = (word x).toNat % 32 := by
    rw [BitVec.toNat_and, show (word 0x1f).toNat = 2 ^ 5 - 1 from rfl,
      Nat.and_two_pow_sub_one_eq_mod]
  rw [bitAnd, BitVec.toInt_eq_toNat_of_lt (by rw [hand]; omega), hand]

theorem shamt_eq (x : Int) : Instruction.shamt x = (word x).toNat % 32 := by
  rw [Instruction.shamt, bitAnd_shamt, Int.toNat_natCast]

theorem mask_signExtend (imm : BitVec 16) :
    imm.signExtend 32 &&& word 0xffff = imm.setWidth 32 := by
  apply BitVec.eq_of_getLsbD_eq
  intro i hi
  have hmask : (word 0xffff).getLsbD i = decide (i < 16) := by
    rw [show word 0xffff = BitVec.ofNat 32 (2 ^ 16 - 1) from rfl, BitVec.getLsbD_ofNat,
      Nat.testBit_two_pow_sub_one]
    simp [hi]
  rw [BitVec.getLsbD_and, hmask, BitVec.getLsbD_signExtend, BitVec.getLsbD_setWidth]
  by_cases h : i < 16
  · simp [h, hi]
  · simp [h, BitVec.getLsbD_of_ge imm i (by omega)]

theorem shiftLeft_signExtend (imm : BitVec 16) :
    imm.signExtend 32 <<< 16 = imm.setWidth 32 <<< 16 := by
  apply BitVec.eq_of_getLsbD_eq
  intro i hi
  rw [BitVec.getLsbD_shiftLeft, BitVec.getLsbD_shiftLeft, BitVec.getLsbD_signExtend,
    BitVec.getLsbD_setWidth]
  have h : i - 16 < 16 := by omega
  by_cases hlow : i < 16 <;> simp [h, hlow]

theorem wrap_add (x y : Int) : wrap (x + y) = (word x + word y).toInt := by
  rw [← toInt_word, word, BitVec.ofInt_add, word, word]

theorem wrap_sub (x y : Int) : wrap (x - y) = (word x - word y).toInt := by
  rw [← toInt_word, word, sub_eq_add_neg, BitVec.ofInt_add, BitVec.ofInt_neg,
    ← BitVec.sub_eq_add_neg]
  rfl

theorem toInt_flag (b : Bool) : (if b then 1 else 0 : BitVec 32).toInt = if b then 1 else 0 := by
  cases b <;> rfl

theorem slt_word {x y : Int} (hx : IsInt x) (hy : IsInt y) :
    (word x).slt (word y) = decide (x < y) := by
  rw [BitVec.slt, toInt_word_of_isInt hx, toInt_word_of_isInt hy]

theorem ult_word (x y : Int) : (word x).ult (word y) = decide (unsigned x < unsigned y) := by
  rw [BitVec.ult, toNat_word, toNat_word]

theorem effect_alu {i : Instruction} {o : Operands} {imm : BitVec 16} {sa : ℕ} {r : AluResult}
    (hrs : IsInt o.rs) (hrt : IsInt o.rt) (himm : i.opCode ∈ immediateOps → i.extra = imm.toInt)
    (hsa : i.opCode ∈ shiftOps → i.extra = sa)
    (h : mipsAlu (Instruction.simulatedAs i.opCode) (word o.rs) (word o.rt) imm sa = some r) :
    i.effect o = r.effect i.dest (wrap (o.nextPC + 4)) := by
  have hsigned : imm.toInt = (imm.signExtend 32).toInt :=
    (BitVec.toInt_signExtend_of_le (by decide)).symm
  have hword : i.opCode ∈ immediateOps → word i.extra = imm.signExtend 32 := fun hop => by
    rw [himm hop, hsigned, word_toInt]
  have hint := isInt_toInt (imm.signExtend 32)
  have hrs' := toInt_word_of_isInt hrs
  have hrt' := toInt_word_of_isInt hrt
  obtain ⟨op, rs, rt, rd, extra⟩ := i
  dsimp only at himm hsa hword
  -- a result that is not checked is written as it is
  have hwrite : ∀ (d : ℕ) {x : Int} {v : BitVec 32}, x = v.toInt →
      Effect.goOn [(d, x)] (wrap (o.nextPC + 4)) =
        (AluResult.value v).effect d (wrap (o.nextPC + 4)) := by
    rintro d x v rfl
    rfl
  cases op
  case add =>
    cases h
    rw [hrs', hrt']
    exact checked_effect (add_overflow hrs hrt (.inl rfl)) _ _
  case addi =>
    cases h
    obtain rfl : extra = _ := (himm (by decide)).trans hsigned
    rw [hrs', hsigned]
    exact checked_effect (add_overflow hrs hint (.inr rfl)) _ _
  case sub =>
    cases h
    rw [hrs', hrt']
    exact checked_effect (sub_overflow hrs hrt) _ _
  case addiu =>
    cases h
    refine hwrite rt ?_
    rw [wrap_add, hword (by decide)]
  case addu =>
    cases h
    exact hwrite rd (wrap_add ..)
  case subu =>
    cases h
    exact hwrite rd (wrap_sub ..)
  case and | or | xor =>
    cases h
    exact hwrite rd rfl
  case nor =>
    cases h
    refine hwrite rd ?_
    rw [bitNot, bitOr, word_toInt]
  case andi =>
    cases h
    refine hwrite rt ?_
    rw [bitAnd, bitAnd, word_toInt, hword (by decide), mask_signExtend]
  case ori =>
    cases h
    refine hwrite rt ?_
    rw [bitOr, bitAnd, word_toInt, hword (by decide), mask_signExtend]
  case xori =>
    cases h
    refine hwrite rt ?_
    rw [bitXor, bitAnd, word_toInt, hword (by decide), mask_signExtend]
  case lui =>
    cases h
    refine hwrite rt ?_
    rw [shiftLeft, hword (by decide), shiftLeft_signExtend]
  case sll | sra | srl =>
    cases h
    obtain rfl : extra = sa := hsa (by decide)
    exact hwrite rd rfl
  case sllv | srav | srlv =>
    cases h
    refine hwrite rd ?_
    rw [shamt_eq]
    rfl
  case slt =>
    cases h
    refine hwrite rd ?_
    rw [toInt_flag, slt_word hrs hrt]
    simp only [decide_eq_true_eq]
  case slti =>
    cases h
    obtain rfl : extra = _ := (himm (by decide)).trans hsigned
    refine hwrite rt ?_
    rw [toInt_flag, ← word_toInt (imm.signExtend 32), slt_word hrs hint, word_toInt]
    simp only [decide_eq_true_eq]
  case sltu =>
    cases h
    refine hwrite rd ?_
    rw [toInt_flag, ult_word]
    simp only [decide_eq_true_eq]
  case sltiu =>
    cases h
    refine hwrite rt ?_
    rw [toInt_flag, ← hword (by decide), ult_word]
    simp only [decide_eq_true_eq]
  all_goals cases h

/-- A logical shift of a negative word, by which the sign goes down with the other bits. -/
def SignFilled (op : OpCode) (rs rt : BitVec 32) (sa : ℕ) : Prop :=
  rt.msb = true ∧ (op = .srl ∧ sa ≠ 0 ∨ op = .srlv ∧ rs.toNat % 32 ≠ 0)

theorem sshiftRight_eq_iff (x : BitVec 32) {n : ℕ} (hn : n < 32) :
    x >>> n = x.sshiftRight n ↔ ¬(x.msb = true ∧ n ≠ 0) := by
  by_cases hzero : n = 0
  · subst hzero
    simp
  by_cases hmsb : x.msb = true
  · refine iff_of_false (fun h => ?_) (by simp [hmsb, hzero])
    have htop := congrArg BitVec.msb h
    rw [BitVec.msb_sshiftRight, hmsb, BitVec.msb_ushiftRight] at htop
    simp [hzero] at htop
  · have hfalse : x.msb = false := by simpa using hmsb
    simp [BitVec.sshiftRight_eq_of_msb_false hfalse, hfalse]

/-- The op code that is simulated gives the same result, unless a sign is filled in. -/
theorem mipsAlu_simulatedAs {op : OpCode} {rs rt : BitVec 32} {imm : BitVec 16} {sa : ℕ}
    {r : AluResult} (hsa : sa < 32) (hr : mipsAlu op rs rt imm sa = some r) :
    mipsAlu (Instruction.simulatedAs op) rs rt imm sa = some r ∧ ¬SignFilled op rs rt sa ∨
    ∃ v v', r = .value v ∧ v ≠ v' ∧ SignFilled op rs rt sa ∧
      mipsAlu (Instruction.simulatedAs op) rs rt imm sa = some (.value v') := by
  have hlt : rs.toNat % 32 < 32 := Nat.mod_lt _ (by decide)
  by_cases hfilled : SignFilled op rs rt sa
  · obtain ⟨hmsb, ⟨rfl, hne⟩ | ⟨rfl, hne⟩⟩ := hfilled
    · cases hr
      refine .inr ⟨_, _, rfl, ?_, ⟨hmsb, .inl ⟨rfl, hne⟩⟩, rfl⟩
      exact fun h => (sshiftRight_eq_iff rt hsa).mp h ⟨hmsb, hne⟩
    · cases hr
      refine .inr ⟨_, _, rfl, ?_, ⟨hmsb, .inr ⟨rfl, hne⟩⟩, rfl⟩
      exact fun h => (sshiftRight_eq_iff rt hlt).mp h ⟨hmsb, hne⟩
  · refine .inl ⟨?_, hfilled⟩
    cases op
    case srl =>
      cases hr
      have hsame := (sshiftRight_eq_iff rt hsa).mpr fun h => hfilled ⟨h.1, .inl ⟨rfl, h.2⟩⟩
      rw [hsame]
      rfl
    case srlv =>
      cases hr
      have hsame := (sshiftRight_eq_iff rt hlt).mpr fun h => hfilled ⟨h.1, .inr ⟨rfl, h.2⟩⟩
      rw [hsame]
      rfl
    all_goals exact hr

namespace Machine
variable {m m₁ : Machine} {raw : Int}

theorem oneInstruction_of_fetch (hfetch : m.readMem (m.registers pcReg) 4 = .done raw m₁) :
    m.oneInstruction =
      (m₁.execute (.decode raw)).bind fun next m₂ => .done () (m₂.complete next) := by
  rw [oneInstruction, fetch, hfetch]
  rfl

theorem complete_dest (hm : SoundRegisters m.registers) {d : ℕ} (hd : d < numGPRegs)
    (v pcAfter : Int) :
    ((m.setRegister d v).complete ⟨pcAfter, 0, 0⟩).registers d =
      if d = 0 then 0 else if m.registers loadReg = d then m.registers loadValueReg else v := by
  have hload : loadReg ≠ d := (hd.trans (by decide)).ne'
  have hvalue : loadValueReg ≠ d := (hd.trans (by decide)).ne'
  have hkeep : (m.setRegister d v).registers loadReg = m.registers loadReg :=
    Function.update_of_ne hload _ _
  have hnonneg : 0 ≤ (m.setRegister d v).registers loadReg := hkeep ▸ hm.load_nonneg
  rw [complete_gp hnonneg hd]
  simp only [setRegister, Function.update_self, Function.update_of_ne hload,
    Function.update_of_ne hvalue]

/-- The instruction, with the machine `m₁` that its fetch leaves, does what the architecture
says: it writes the result, or traps and writes nothing. -/
def AluStep (m m₁ : Machine) (d : ℕ) : AluResult → Prop
  | .value v => ∃ m', m.oneInstruction = .done () m' ∧ m'.registers d = if d = 0 then 0 else v.toInt
  | .overflow => m.oneInstruction = .raised .overflowException (m₁.raiseException 0)

theorem aluStep_value_iff (hm : SoundRegisters m.registers) (hregs : m₁.registers = m.registers)
    {d : ℕ} (hd : d < numGPRegs) {v v' : BitVec 32} {pcAfter : Int}
    (hrun : m.oneInstruction = .done () ((m₁.setRegister d v'.toInt).complete ⟨pcAfter, 0, 0⟩)) :
    AluStep m m₁ d (.value v) ↔
      (d ≠ 0 → if m.registers loadReg = d then m.registers loadValueReg = v.toInt else v' = v) := by
  have hdest := complete_dest (hregs ▸ hm) hd v'.toInt pcAfter
  rw [hregs] at hdest
  have hstep : AluStep m m₁ d (.value v) ↔
      (if d = 0 then 0 else if m.registers loadReg = d then m.registers loadValueReg
        else v'.toInt) = if d = 0 then 0 else v.toInt := by
    rw [← hdest]
    constructor
    · rintro ⟨m', hm', h⟩
      cases hrun.symm.trans hm'
      exact h
    · intro h
      exact ⟨_, hrun, h⟩
  rw [hstep]
  by_cases hzero : d = 0
  · simp [hzero]
  · rw [if_neg hzero, if_neg hzero]
    split_ifs
    · simp [hzero]
    · simp [hzero, BitVec.toInt_inj]

/-- The ALU instructions match the architecture, except that `SRL` and `SRLV` keep the sign and
that a load still pending into the destination overwrites the result. -/
theorem alu_matches_iff {r : AluResult} (hm : SoundRegisters m.registers)
    (hint : ∀ k, IsInt (m.registers k))
    (hfetch : m.readMem (m.registers pcReg) 4 = .done raw m₁)
    (hr : mipsAlu (Instruction.decode raw).opCode
      (word (m.registers (Instruction.decode raw).rs))
      (word (m.registers (Instruction.decode raw).rt)) (immediate raw) (shiftAmount raw) =
        some r) :
    AluStep m m₁ (Instruction.decode raw).dest r ↔
      ∀ v, r = .value v → ((Instruction.decode raw).dest : ℕ) ≠ 0 →
        if m.registers loadReg = ((Instruction.decode raw).dest : ℕ) then
          m.registers loadValueReg = v.toInt
        else ¬SignFilled (Instruction.decode raw).opCode
          (word (m.registers (Instruction.decode raw).rs))
          (word (m.registers (Instruction.decode raw).rt)) (shiftAmount raw) := by
  have hsa : shiftAmount raw < 32 := Nat.mod_lt _ (by decide)
  have hregs := readMem_registers hfetch
  have himm : (Instruction.decode raw).opCode ∈ immediateOps →
      (Instruction.decode raw).extra = (immediate raw).toInt := fun h =>
    (Instruction.decode_immediate h).trans (Instruction.signedImmediate_eq raw)
  -- what the switch does, for the result `r'` of the simulated op code
  have hrun : ∀ r', mipsAlu (Instruction.simulatedAs (Instruction.decode raw).opCode)
      (word (m.registers (Instruction.decode raw).rs))
      (word (m.registers (Instruction.decode raw).rt)) (immediate raw) (shiftAmount raw) = some r' →
      (Instruction.decode raw).effect ((Instruction.decode raw).operands m₁.registers) =
        r'.effect (Instruction.decode raw).dest (wrap (m.registers nextPCReg + 4)) := by
    intro r' hr'
    rw [hregs]
    exact effect_alu (hint _) (hint _) himm Instruction.decode_shift hr'
  have hone := oneInstruction_of_fetch hfetch
  generalize Instruction.decode raw = i at *
  have hdone : ∀ v', i.effect (i.operands m₁.registers) = AluResult.effect i.dest
      (wrap (m.registers nextPCReg + 4)) (.value v') → m.oneInstruction = .done ()
        ((m₁.setRegister i.dest v'.toInt).complete ⟨wrap (m.registers nextPCReg + 4), 0, 0⟩) := by
    intro v' he
    rw [hone, execute, he]
    rfl
  rcases mipsAlu_simulatedAs hsa hr with ⟨hr', hnot⟩ | ⟨v, v', rfl, hne, hfilled, hr'⟩
  · cases r with
    | value v =>
      rw [aluStep_value_iff hm hregs i.dest.isLt (hdone v (hrun _ hr'))]
      simp [hnot]
    | overflow =>
      refine iff_of_true ?_ fun v hv => by cases hv
      rw [AluStep, hone, execute, hrun _ hr']
      rfl
  · rw [aluStep_value_iff hm hregs i.dest.isLt (hdone v' (hrun _ hr'))]
    simp [hfilled, hne.symm]

def oneWord (instruction : List UInt8) (r1 r2 : Int) : Machine where
  mainMemory a := instruction.getD a.toNat 0
  registers k := if k = 1 then r1 else if k = 2 then r2 else if k = nextPCReg then 4 else 0
  tlb := none
  pageTable := some [⟨0, 0, true, false, false, false⟩]
  pageTableSize := 1

theorem sound_oneWord (instruction : List UInt8) (r1 r2 : Int) :
    SoundRegisters (oneWord instruction r1 r2).registers :=
  ⟨rfl, le_rfl, (by decide : (0 : Int) < numGPRegs)⟩

theorem isInt_oneWord {instruction : List UInt8} {r1 r2 : Int} (h₁ : IsInt r1) (h₂ : IsInt r2)
    (k : ℕ) : IsInt ((oneWord instruction r1 r2).registers k) := by
  unfold oneWord
  dsimp only
  split_ifs
  · exact h₁
  · exact h₂
  · decide
  · decide

/-- `SRL r2, r1, 1` of 0x80000000 gives 0xc0000000. -/
theorem srl_keeps_sign :
    (∃ m', (oneWord [0x42, 0x10, 0x01, 0x00] (-2147483648) 0).oneInstruction = .done () m' ∧
      m'.registers 2 = (0xc0000000 : BitVec 32).toInt) ∧
    mipsAlu .srl 0 (word (-2147483648)) 0x1042 1 = some (.value 0x40000000) :=
  ⟨⟨_, rfl, rfl⟩, by decide⟩

/-- `ADD r3, r1, r2` of the largest word and 1 traps. -/
theorem alu_matches_add : ∃ m₁ : Machine,
    (oneWord [0x20, 0x18, 0x22, 0x00] 2147483647 1).oneInstruction =
      .raised .overflowException (m₁.raiseException 0) := by
  obtain ⟨m₁, hfetch⟩ := Outcome.done_of_seen
    (show ((oneWord [0x20, 0x18, 0x22, 0x00] 2147483647 1).readMem 0 4).seen =
      some (.inr 0x00221820) by decide +kernel)
  refine ⟨m₁, (alu_matches_iff (r := .overflow) (sound_oneWord _ _ _)
    (isInt_oneWord (by decide) (by decide)) hfetch (by decide +kernel)).mpr ?_⟩
  rintro v ⟨⟩

end Machine
end Nachos
