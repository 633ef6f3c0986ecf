import Nachos.Alu

namespace Nachos
open TwosComplement

/-- The operations of the host that are not defined on all their operands. -/
inductive HostOp where
  | shift (amount : Int)
  | divide (x y : Int)
  | divideUnsigned (x y : ℕ)
  | lookup (index size : ℕ)

namespace HostOp

def Defined : HostOp → Prop
  | shift amount => 0 ≤ amount ∧ amount < 32
  | divide x y => y ≠ 0 ∧ IsInt (x.tdiv y)
  | divideUnsigned x y => y ≠ 0 ∧ x / y < 2 ^ 32
  | lookup index size => index < size

instance : DecidablePred Defined
  | shift _ => inferInstanceAs (Decidable (_ ∧ _))
  | divide _ _ => inferInstanceAs (Decidable (_ ∧ _))
  | divideUnsigned _ _ => inferInstanceAs (Decidable (_ ∧ _))
  | lookup _ _ => inferInstanceAs (Decidable (_ < _))

end HostOp

namespace Instruction

def decodeOps (raw : Int) : List HostOp :=
  let value := unsigned raw
  let opPtr := opTable.getD (value / 2 ^ 26 % 64) (.op .res, .ifmt)
  [.shift 21, .shift 16, .shift 11, .shift 26, .lookup (value / 2 ^ 26 % 64) opTable.length] ++
    (if opPtr.2 = .rfmt then [.shift 6] else []) ++
    (if opPtr.1 = .special then [.lookup (value % 64) specialTable.length] else [])

/-- The operations of the switch, for a branch as if it is taken. -/
def hostOps (i : Instruction) (o : Operands) : List HostOp :=
  match i.opCode with
  | .beq | .bgez | .bgezal | .bgtz | .blez | .bltz | .bltzal | .bne | .j | .jal => [.shift 2]
  | .div => if o.rt = 0 then [] else [.divide o.rs o.rt]
  | .divu => if unsigned o.rt = 0 then [] else [.divideUnsigned (unsigned o.rs) (unsigned o.rt)]
  | .lui => [.shift 16]
  | .lwl | .swl => if shiftOf (i.address o) = 0 then [] else [.shift (8 * shiftOf (i.address o))]
  | .lwr | .swr =>
    if shiftOf (i.address o) = 3 then [] else [.shift (24 - 8 * shiftOf (i.address o))]
  -- each round of `Mult` shifts by one
  | .mult | .multu => [.shift 1]
  | .sll | .sra | .srl => [.shift i.extra]
  | .sllv | .srav | .srlv => [.shift (bitAnd o.rs 0x1f)]
  | _ => []

theorem decodeOps_defined (raw : Int) : ∀ op ∈ decodeOps raw, op.Defined := by
  have hop : unsigned raw / 2 ^ 26 % 64 < opTable.length := Nat.mod_lt _ (by decide)
  have hspecial : unsigned raw % 64 < specialTable.length := Nat.mod_lt _ (by decide)
  intro op h
  simp only [decodeOps, List.mem_append, List.mem_ite_nil_right, List.mem_cons, List.not_mem_nil,
    or_false] at h
  rcases h with ((rfl | rfl | rfl | rfl | rfl) | ⟨-, rfl⟩) | ⟨-, rfl⟩
  · decide
  · decide
  · decide
  · decide
  · exact hop
  · decide
  · exact hspecial

theorem decode_handled (raw : Int) : (decode raw).opCode ≠ .rfe := by
  have htable : ∀ p ∈ opTable, p.1 ≠ .op .rfe := by decide
  have hspecial : ∀ op ∈ specialTable, op ≠ .rfe := by decide
  have hbranch : ∀ op ∈ [OpCode.bltz, .bgez, .bltzal, .bgezal, .unimp], op ≠ .rfe := by decide
  rcases decode_cases raw with ⟨op, f, hmem, hop, -⟩ | ⟨hop, -⟩ | hop
  · intro h
    exact htable _ hmem (by rw [← hop, h])
  · exact hspecial _ hop
  · exact hbranch _ hop

/-- The one pair of operands that the host cannot divide. -/
def Overflows (i : Instruction) (o : Operands) : Prop :=
  i.opCode = .div ∧ o.rs = intMin ∧ o.rt = -1

theorem effect_crash_iff {i : Instruction} (hi : i.opCode ≠ .rfe) (o : Operands) :
    i.effect o = .crash ↔ i.Overflows o := by
  constructor
  · intro h
    obtain ⟨op, rs, rt, rd, extra⟩ := i
    cases op
    case div =>
      simp only [effect] at h
      split_ifs at h with h₁ h₂
      exact ⟨rfl, h₂⟩
    case rfe => exact absurd rfl hi
    case add | addi | lh | lhu | lw | divu | sub =>
      simp only [effect] at h
      split_ifs at h
    all_goals cases h
  · rintro ⟨hop, hrs, hrt⟩
    rw [effect, hop]
    dsimp only
    rw [if_neg (by rw [hrt]; decide), if_pos ⟨hrs, hrt⟩]

theorem shiftOf_lt (tmp : Int) : shiftOf tmp < 4 := by
  unfold shiftOf
  omega

theorem isInt_tdiv {x y : Int} (hx : IsInt x) (hy : y ≠ 0) (h : ¬(x = intMin ∧ y = -1)) :
    IsInt (x.tdiv y) := by
  have habs : (x.tdiv y).natAbs = x.natAbs / y.natAbs := Int.natAbs_tdiv ..
  unfold IsInt intMin intMax at *
  by_cases hone : y.natAbs = 1
  · rcases Int.natAbs_eq_iff.mp hone with rfl | rfl
    · rw [Int.natCast_one, Int.tdiv_one]
      exact hx
    · rw [Int.natCast_one, Int.tdiv_neg, Int.tdiv_one]
      simp only [Int.natCast_one, and_true] at h
      omega
  · -- the quotient is at most half as large
    have hhalf : x.natAbs / y.natAbs ≤ x.natAbs / 2 := Nat.div_le_div_left (by omega) (by decide)
    omega

theorem hostOps_defined {i : Instruction} {o : Operands} {raw : Int} (hi : i = decode raw)
    (hrs : IsInt o.rs) (h : ¬i.Overflows o) : ∀ op ∈ i.hostOps o, op.Defined := by
  -- the shift amounts are five bits, in the word or in a register
  have hshift : i.opCode ∈ shiftOps → i.extra = shiftAmount raw := by
    subst hi
    exact decode_shift
  have hlt := shiftOf_lt (i.address o)
  have hamount : shiftAmount raw < 32 := Nat.mod_lt _ (by decide)
  have hand := bitAnd_shamt o.rs
  have hmod : (word o.rs).toNat % 32 < 32 := Nat.mod_lt _ (by decide)
  clear hi
  obtain ⟨op, rs, rt, rd, extra⟩ := i
  dsimp only at hshift
  cases op
  case div =>
    simp only [hostOps, List.mem_ite_nil_left, List.mem_singleton]
    rintro _ ⟨hrt, rfl⟩
    exact ⟨hrt, isInt_tdiv hrs hrt fun hover => h ⟨rfl, hover⟩⟩
  case divu =>
    simp only [hostOps, List.mem_ite_nil_left, List.mem_singleton]
    rintro _ ⟨hrt, rfl⟩
    refine ⟨hrt, (Nat.div_le_self _ _).trans_lt ?_⟩
    unfold unsigned
    omega
  case lwl | swl | lwr | swr =>
    simp only [hostOps, List.mem_ite_nil_left, List.mem_singleton]
    rintro _ ⟨-, rfl⟩
    constructor <;> omega
  case sll | sra | srl =>
    have hextra := hshift (by decide)
    simp only [hostOps, List.mem_singleton]
    rintro _ rfl
    constructor <;> omega
  case sllv | srav | srlv =>
    simp only [hostOps, List.mem_singleton]
    rintro _ rfl
    constructor <;> omega
  all_goals
    simp only [hostOps, List.mem_singleton, List.not_mem_nil]
    first
      | rintro _ rfl
        decide
      | rintro _ ⟨⟩

end Instruction

/-- The quotient and the remainder that a division leaves in `Lo` and `Hi`. -/
structure Divided (magnitude : Int → ℕ) (rs rt lo hi : Int) : Prop where
  product : word rs = word lo * word rt + word hi
  remainder : magnitude hi < magnitude rt

theorem divided_div {rs rt : Int} (hrt : rt ≠ 0) :
    Divided Int.natAbs rs rt (rs.tdiv rt) (rs.tmod rt) where
  product := by
    rw [word, word, word, word, ← BitVec.ofInt_mul, ← BitVec.ofInt_add, Int.tdiv_mul_add_tmod]
  remainder := by
    rw [Int.natAbs_tmod]
    exact Nat.mod_lt _ (Int.natAbs_pos.mpr hrt)

theorem unsigned_wrap_natCast {n : ℕ} (h : n < 2 ^ 32) : unsigned (wrap n) = n := by
  unfold unsigned wrap
  omega

theorem divided_divu {rs rt : Int} (hrt : unsigned rt ≠ 0) :
    Divided unsigned rs rt (wrap (unsigned rs / unsigned rt : ℕ))
      (wrap (unsigned rs % unsigned rt : ℕ)) where
  product := by
    have hrs : unsigned rs < 2 ^ 32 := by
      unfold unsigned
      omega
    have hquotient : unsigned rs / unsigned rt < 2 ^ 32 := (Nat.div_le_self _ _).trans_lt hrs
    have hremainder : unsigned rs % unsigned rt < 2 ^ 32 := (Nat.mod_le _ _).trans_lt hrs
    apply BitVec.eq_of_toNat_eq
    rw [BitVec.toNat_add, BitVec.toNat_mul, toNat_word, toNat_word, toNat_word, toNat_word,
      unsigned_wrap_natCast hquotient, unsigned_wrap_natCast hremainder, Nat.mod_add_mod,
      Nat.div_add_mod', Nat.mod_eq_of_lt hrs]
  remainder := by
    have hlt : unsigned rs % unsigned rt < unsigned rt := Nat.mod_lt _ (Nat.pos_of_ne_zero hrt)
    rw [unsigned_wrap_natCast (hlt.trans (by unfold unsigned; omega))]
    exact hlt

namespace Machine
variable {m m₁ : Machine} {raw : Int}

theorem complete_quotient (hm : SoundRegisters m.registers) (lo hi pcAfter : Int) :
    let m' := (m.setRegisters [(loReg, lo), (hiReg, hi)]).complete ⟨pcAfter, 0, 0⟩
    m'.registers loReg = lo ∧ m'.registers hiReg = hi := by
  have hload : (m.setRegisters [(loReg, lo), (hiReg, hi)]).registers loadReg < numGPRegs :=
    hm.load_lt
  constructor
  · exact delayedLoad_above hload 0 0 (r := loReg) (by decide) (by decide) (by decide)
  · exact delayedLoad_above hload 0 0 (r := hiReg) (by decide) (by decide) (by decide)

/-- The instruction word `raw` is within what the host computes, and a division comes out
right. -/
structure HostSafe (m : Machine) (raw : Int) : Prop where
  decoded : ∀ op ∈ Instruction.decodeOps raw, op.Defined
  handled : (Instruction.decode raw).opCode ≠ .rfe
  performed : ∀ op ∈ (Instruction.decode raw).hostOps
    ((Instruction.decode raw).operands m.registers), op.Defined
  runs : (Instruction.decode raw).effect ((Instruction.decode raw).operands m.registers) ≠ .crash
  div : (Instruction.decode raw).opCode = .div → m.registers (Instruction.decode raw).rt ≠ 0 →
    ∃ m', m.oneInstruction = .done () m' ∧
      Divided Int.natAbs (m.registers (Instruction.decode raw).rs)
        (m.registers (Instruction.decode raw).rt) (m'.registers loReg) (m'.registers hiReg)
  divu : (Instruction.decode raw).opCode = .divu → m.registers (Instruction.decode raw).rt ≠ 0 →
    ∃ m', m.oneInstruction = .done () m' ∧
      Divided unsigned (m.registers (Instruction.decode raw).rs)
        (m.registers (Instruction.decode raw).rt) (m'.registers loReg) (m'.registers hiReg)

theorem oneInstruction_divided {i : Instruction} {magnitude : Int → ℕ} {rs rt lo hi : Int}
    (hm : SoundRegisters m₁.registers)
    (hone : m.oneInstruction =
      (m₁.execute i).bind fun next m₂ => .done () (m₂.complete next))
    (heffect : ∃ pcAfter, i.effect (i.operands m₁.registers) =
      .goOn [(loReg, lo), (hiReg, hi)] pcAfter)
    (h : Divided magnitude rs rt lo hi) :
    ∃ m', m.oneInstruction = .done () m' ∧
      Divided magnitude rs rt (m'.registers loReg) (m'.registers hiReg) := by
  obtain ⟨pcAfter, heffect⟩ := heffect
  obtain ⟨hlo, hhi⟩ := complete_quotient hm lo hi pcAfter
  rw [execute, heffect] at hone
  exact ⟨_, hone, by rwa [hlo, hhi]⟩

/-- Every instruction word is safe on every register file, except for `DIV` of the smallest word
by -1. -/
theorem hostSafe_iff (hm : SoundRegisters m.registers) (hint : ∀ k, IsInt (m.registers k))
    (hfetch : m.readMem (m.registers pcReg) 4 = .done raw m₁) :
    HostSafe m raw ↔ ¬((Instruction.decode raw).opCode = .div ∧
      m.registers (Instruction.decode raw).rs = intMin ∧
      m.registers (Instruction.decode raw).rt = -1) := by
  have hregs := readMem_registers hfetch
  have hone := oneInstruction_of_fetch hfetch
  have hhandled := Instruction.decode_handled raw
  have hcrash := Instruction.effect_crash_iff hhandled
    ((Instruction.decode raw).operands m.registers)
  constructor
  · intro h hover
    exact h.runs (hcrash.mpr hover)
  · intro hover
    refine ⟨Instruction.decodeOps_defined raw, hhandled,
      Instruction.hostOps_defined rfl (hint _) hover, fun h => hover (hcrash.mp h), ?_, ?_⟩
    · intro hop hrt
      refine oneInstruction_divided (hregs ▸ hm) hone ⟨wrap (m.registers nextPCReg + 4), ?_⟩
        (divided_div hrt)
      rw [hregs, Instruction.effect, hop]
      exact (if_neg hrt).trans (if_neg fun h => hover ⟨hop, h⟩)
    · intro hop hrt
      have hne : unsigned (m.registers (Instruction.decode raw).rt) ≠ 0 := by
        have hrange := hint (Instruction.decode raw).rt
        unfold IsInt intMin intMax at hrange
        unfold unsigned
        omega
      refine oneInstruction_divided (hregs ▸ hm) hone ⟨wrap (m.registers nextPCReg + 4), ?_⟩
        (divided_divu hne)
      rw [hregs, Instruction.effect, hop]
      exact if_neg hne

/-- `DIV r1, r2` of -2147483648 by -1 stops the simulator: the host is asked for a quotient that
is no `int`. -/
theorem div_crashes :
    (oneWord [0x1a, 0x00, 0x22, 0x00] (-2147483648) (-1)).oneInstruction = .abort ∧
    (Instruction.decode 0x0022001a).hostOps ((Instruction.decode 0x0022001a).operands
      (oneWord [0x1a, 0x00, 0x22, 0x00] (-2147483648) (-1)).registers) =
        [.divide (-2147483648) (-1)] ∧
    ¬(HostOp.divide (-2147483648) (-1)).Defined :=
  ⟨rfl, rfl, by decide⟩

/-- `DIV r1, r2` of -7 by 2. -/
theorem hostSafe_div : HostSafe (oneWord [0x1a, 0x00, 0x22, 0x00] (-7) 2) 0x0022001a := by
  obtain ⟨m₁, hfetch⟩ := Outcome.done_of_seen
    (show ((oneWord [0x1a, 0x00, 0x22, 0x00] (-7) 2).readMem 0 4).seen =
      some (.inr 0x0022001a) by decide +kernel)
  exact (hostSafe_iff (sound_oneWord _ _ _) (isInt_oneWord (by decide) (by decide)) hfetch).mpr
    (by decide +kernel)

end Machine
end Nachos
