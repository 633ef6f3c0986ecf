import Nachos.Machine

namespace Nachos
open TwosComplement

def numGPRegs : ℕ := 32
def r31 : ℕ := 31
def hiReg : ℕ := 32
def loReg : ℕ := 33

def word (x : Int) : BitVec 32 := BitVec.ofInt 32 x

theorem word_toInt (x : BitVec 32) : word x.toInt = x := BitVec.ofInt_toInt

theorem toNat_word (x : Int) : (word x).toNat = unsigned x := BitVec.toNat_ofInt ..

theorem toInt_word (x : Int) : (word x).toInt = wrap x := by
  rw [word, BitVec.toInt_ofInt, wrap, Int.bmod_def]
  norm_num
  split_ifs <;> omega

def bitAnd (x y : Int) : Int := (word x &&& word y).toInt
def bitOr (x y : Int) : Int := (word x ||| word y).toInt
def bitXor (x y : Int) : Int := (word x ^^^ word y).toInt
def bitNot (x : Int) : Int := (~~~word x).toInt

/-- `x << n` and, with the sign kept, `x >> n`. -/
def shiftLeft (x : Int) (n : ℕ) : Int := (word x <<< n).toInt
def shiftRight (x : Int) (n : ℕ) : Int := ((word x).sshiftRight n).toInt

def signBit (x : Int) : Bool := (word x).msb

def indexToAddr (x : Int) : Int := shiftLeft x 2

inductive OpCode where
  | add | addi | addiu | addu | and | andi
  | beq | bgez | bgezal | bgtz | blez | bltz | bltzal | bne
  | div | divu | j | jal | jalr | jr
  | lb | lbu | lh | lhu | lui | lw | lwl | lwr
  | mfhi | mflo | mthi | mtlo | mult | multu | nor | or | ori | rfe
  | sb | sh | sll | sllv | slt | slti | sltiu | sltu | sra | srav | srl | srlv
  | sub | subu | sw | swl | swr | xor | xori | syscall | unimp | res
  deriving DecidableEq, Repr

inductive Format where
  | ifmt | jfmt | rfmt
  deriving DecidableEq, Repr

inductive OpInfo where
  | op (opCode : OpCode)
  | special
  | bcond
  deriving DecidableEq, Repr

def opTable : List (OpInfo × Format) :=
  [(.special, .rfmt), (.bcond, .ifmt), (.op .j, .jfmt), (.op .jal, .jfmt),
   (.op .beq, .ifmt), (.op .bne, .ifmt), (.op .blez, .ifmt), (.op .bgtz, .ifmt),
   (.op .addi, .ifmt), (.op .addiu, .ifmt), (.op .slti, .ifmt), (.op .sltiu, .ifmt),
   (.op .andi, .ifmt), (.op .ori, .ifmt), (.op .xori, .ifmt), (.op .lui, .ifmt),
   (.op .unimp, .ifmt), (.op .unimp, .ifmt), (.op .unimp, .ifmt), (.op .unimp, .ifmt),
   (.op .res, .ifmt), (.op .res, .ifmt), (.op .res, .ifmt), (.op .res, .ifmt),
   (.op .res, .ifmt), (.op .res, .ifmt), (.op .res, .ifmt), (.op .res, .ifmt),
   (.op .res, .ifmt), (.op .res, .ifmt), (.op .res, .ifmt), (.op .res, .ifmt),
   (.op .lb, .ifmt), (.op .lh, .ifmt), (.op .lwl, .ifmt), (.op .lw, .ifmt),
   (.op .lbu, .ifmt), (.op .lhu, .ifmt), (.op .lwr, .ifmt), (.op .res, .ifmt),
   (.op .sb, .ifmt), (.op .sh, .ifmt), (.op .swl, .ifmt), (.op .sw, .ifmt),
   (.op .res, .ifmt), (.op .res, .ifmt), (.op .swr, .ifmt), (.op .res, .ifmt),
   (.op .unimp, .ifmt), (.op .unimp, .ifmt), (.op .unimp, .ifmt), (.op .unimp, .ifmt),
   (.op .res, .ifmt), (.op .res, .ifmt), (.op .res, .ifmt), (.op .res, .ifmt),
   (.op .unimp, .ifmt), (.op .unimp, .ifmt), (.op .unimp, .ifmt), (.op .unimp, .ifmt),
   (.op .res, .ifmt), (.op .res, .ifmt), (.op .res, .ifmt), (.op .res, .ifmt)]

def specialTable : List OpCode :=
  [.sll, .res, .srl, .sra, .sllv, .res, .srlv, .srav,
   .jr, .jalr, .res, .res, .syscall, .unimp, .res, .res,
   .mfhi, .mthi, .mflo, .mtlo, .res, .res, .res, .res,
   .mult, .multu, .div, .divu, .res, .res, .res, .res,
   .add, .addu, .sub, .subu, .and, .or, .xor, .nor,
   .res, .res, .slt, .sltu, .res, .res, .res, .res,
   .res, .res, .res, .res, .res, .res, .res, .res,
   .res, .res, .res, .res, .res, .res, .res, .res]

/-- The three registers name general-purpose registers. -/
structure Instruction where
  opCode : OpCode
  rs : Fin numGPRegs
  rt : Fin numGPRegs
  rd : Fin numGPRegs
  extra : Int
  deriving DecidableEq, Repr

namespace Instruction

def field (value shift : ℕ) : Fin numGPRegs :=
  ⟨value / 2 ^ shift % numGPRegs, Nat.mod_lt _ (by decide)⟩

def decode (raw : Int) : Instruction :=
  let value := unsigned raw
  let opPtr := opTable.getD (value / 2 ^ 26 % 64) (.op .res, .ifmt)
  { rs := field value 21
    rt := field value 16
    rd := field value 11
    opCode :=
      match opPtr.1 with
      | .op opCode => opCode
      | .special => specialTable.getD (value % 64) .res
      | .bcond =>
        -- the five bits of `value & 0x1f0000`
        match value / 2 ^ 16 % 32 with
        | 0x00 => .bltz
        | 0x01 => .bgez
        | 0x10 => .bltzal
        | 0x11 => .bgezal
        | _ => .unimp
    extra :=
      match opPtr.2 with
      | .ifmt =>
        let extra : Int := (value % 2 ^ 16 : ℕ)
        if 0x8000 ≤ extra then bitOr extra 0xffff0000 else extra
      | .rfmt => (value / 2 ^ 6 % 32 : ℕ)
      | .jfmt => (value % 2 ^ 26 : ℕ) }

end Instruction

/-- The rounds of the loop of `Mult` that are left, as `(hi, lo)`; `a` is an `int`, so its
sign stays when it is shifted. -/
def multLoop : ℕ → (a bLo bHi lo hi : BitVec 32) → BitVec 32 × BitVec 32
  | 0, _, _, _, lo, hi => (hi, lo)
  | n + 1, a, bLo, bHi, lo, hi =>
    let bHi' := (bHi <<< 1) ||| (if bLo.msb then 1 else 0)
    if a.getLsbD 0 then
      let lo' := lo + bLo
      -- carry out of the low bits
      let hi' := (if lo'.toNat < bLo.toNat then hi + 1 else hi) + bHi
      if a &&& 0xfffffffe = 0 then (hi', lo')
      else multLoop n (a.sshiftRight 1) (bLo <<< 1) bHi' lo' hi'
    else multLoop n (a.sshiftRight 1) (bLo <<< 1) bHi' lo hi

/-- The two words that `Mult` leaves at `hiPtr` and `loPtr`. -/
def mult (a b : Int) (signedArith : Bool) : Int × Int :=
  if a = 0 ∨ b = 0 then (0, 0)
  else
    let magnitude (x : Int) : BitVec 32 := if signedArith && x < 0 then word (-x) else word x
    let negative := signedArith && (decide (a < 0) != decide (b < 0))
    let (hi, lo) := multLoop 32 (magnitude a) (magnitude b) 0 0 0
    if negative then
      let lo' := ~~~lo + 1
      let hi' := if lo' = 0 then ~~~hi + 1 else ~~~hi
      (hi'.toInt, lo'.toInt)
    else (hi.toInt, lo.toInt)

/-- What an instruction does: write registers in this order and go on at `pcAfter`; load
`extend value` into `rt`; store; read a word and store it with some bytes replaced; trap; or
stop the simulator, by `ASSERT(FALSE)` or by a division the host traps on.  With `SIM_FIX`, which
the makefiles define, `LWL`, `LWR`, `SWL` and `SWR` take any address. -/
inductive Effect where
  | goOn (writes : List (ℕ × Int)) (pcAfter : Int)
  | load (addr size : Int) (extend : Int → Int)
  | store (addr size value : Int)
  | merge (addr : Int) (insert : Int → Int)
  | raise (which : ExceptionType) (badVAddr : Int)
  | crash

/-- The registers read by the switch.  `old` is the start of `nextLoadValue` in `LWL` and
`LWR`: what is on its way to `rt`, or else what is there. -/
structure Operands where
  rs : Int
  rt : Int
  hi : Int
  lo : Int
  nextPC : Int
  old : Int

namespace Instruction

def operands (i : Instruction) (registers : ℕ → Int) : Operands where
  rs := registers i.rs
  rt := registers i.rt
  hi := registers hiReg
  lo := registers loReg
  nextPC := registers nextPCReg
  old := if registers loadReg = i.rt then registers loadValueReg else registers i.rt

def branch (i : Instruction) (o : Operands) (taken : Bool) : Int :=
  if taken then wrap (o.nextPC + indexToAddr i.extra) else wrap (o.nextPC + 4)

def address (i : Instruction) (o : Operands) : Int := wrap (o.rs + i.extra)

/-- The bytes that `LWL` puts into a register, by `3 - byte`. -/
def insertLeft (old value : Int) : ℕ → Int
  | 0 => value
  | 1 => bitOr (bitAnd old 0xff) (shiftLeft value 8)
  | 2 => bitOr (bitAnd old 0xffff) (shiftLeft value 16)
  | _ => bitOr (bitAnd old 0xffffff) (shiftLeft value 24)

def insertRight (old value : Int) : ℕ → Int
  | 0 => bitOr (bitAnd old 0xffffff00) (bitAnd (shiftRight value 24) 0xff)
  | 1 => bitOr (bitAnd old 0xffff0000) (bitAnd (shiftRight value 16) 0xffff)
  | 2 => bitOr (bitAnd old 0xff000000) (bitAnd (shiftRight value 8) 0xffffff)
  | _ => value

/-- The bytes that `SWL` puts into a word of memory, by `3 - byte`. -/
def storeLeft (rt value : Int) : ℕ → Int
  | 0 => rt
  | 1 => bitOr (bitAnd value 0xff000000) (bitAnd (shiftRight rt 8) 0xffffff)
  | 2 => bitOr (bitAnd value 0xffff0000) (bitAnd (shiftRight rt 16) 0xffff)
  | _ => bitOr (bitAnd value 0xffffff00) (bitAnd (shiftRight rt 24) 0xff)

def storeRight (rt value : Int) : ℕ → Int
  | 0 => bitOr (bitAnd value 0xffffff) (shiftLeft rt 24)
  | 1 => bitOr (bitAnd value 0xffff) (shiftLeft rt 16)
  | 2 => bitOr (bitAnd value 0xff) (shiftLeft rt 8)
  | _ => rt

def shiftOf (tmp : Int) : ℕ := (3 - tmp % 4).toNat

def shamt (x : Int) : ℕ := (bitAnd x 0x1f).toNat

def effect (i : Instruction) (o : Operands) : Effect :=
  let pcAfter := wrap (o.nextPC + 4)
  let link := wrap (o.nextPC + 4)
  let tmp := i.address o
  match i.opCode with
  | .add =>
    let sum := wrap (o.rs + o.rt)
    if !signBit (bitXor o.rs o.rt) && signBit (bitXor o.rs sum) then .raise .overflowException 0
    else .goOn [(i.rd, sum)] pcAfter
  | .addi =>
    let sum := wrap (o.rs + i.extra)
    if !signBit (bitXor o.rs i.extra) && signBit (bitXor i.extra sum) then
      .raise .overflowException 0
    else .goOn [(i.rt, sum)] pcAfter
  | .addiu => .goOn [(i.rt, wrap (o.rs + i.extra))] pcAfter
  | .addu => .goOn [(i.rd, wrap (o.rs + o.rt))] pcAfter
  | .and => .goOn [(i.rd, bitAnd o.rs o.rt)] pcAfter
  | .andi => .goOn [(i.rt, bitAnd o.rs (bitAnd i.extra 0xffff))] pcAfter
  | .beq => .goOn [] (i.branch o (o.rs = o.rt))
  | .bgezal =>
    -- the link is written before `rs` is read
    let rs := if (i.rs : ℕ) = r31 then link else o.rs
    .goOn [(r31, link)] (i.branch o (!signBit rs))
  | .bgez => .goOn [] (i.branch o (!signBit o.rs))
  | .bgtz => .goOn [] (i.branch o (0 < o.rs))
  | .blez => .goOn [] (i.branch o (o.rs ≤ 0))
  | .bltzal =>
    let rs := if (i.rs : ℕ) = r31 then link else o.rs
    .goOn [(r31, link)] (i.branch o (signBit rs))
  | .bltz => .goOn [] (i.branch o (signBit o.rs))
  | .bne => .goOn [] (i.branch o (o.rs ≠ o.rt))
  | .div =>
    if o.rt = 0 then .goOn [(loReg, 0), (hiReg, 0)] pcAfter
    -- the quotient is no `int`, and the host's division traps
    else if o.rs = intMin ∧ o.rt = -1 then .crash
    else .goOn [(loReg, o.rs.tdiv o.rt), (hiReg, o.rs.tmod o.rt)] pcAfter
  | .divu =>
    let rs := unsigned o.rs
    let rt := unsigned o.rt
    if rt = 0 then .goOn [(loReg, 0), (hiReg, 0)] pcAfter
    else .goOn [(loReg, wrap (rs / rt : ℕ)), (hiReg, wrap (rs % rt : ℕ))] pcAfter
  | .jal => .goOn [(r31, link)] (bitOr (bitAnd pcAfter 0xf0000000) (indexToAddr i.extra))
  | .j => .goOn [] (bitOr (bitAnd pcAfter 0xf0000000) (indexToAddr i.extra))
  | .jalr => .goOn [(i.rd, link)] (if i.rs = i.rd then link else o.rs)
  | .jr => .goOn [] o.rs
  | .lb =>
    .load tmp 1 fun value =>
      if bitAnd value 0x80 ≠ 0 then bitOr value 0xffffff00 else bitAnd value 0xff
  | .lbu => .load tmp 1 fun value => bitAnd value 0xff
  | .lh =>
    if tmp % 2 ≠ 0 then .raise .addressErrorException tmp
    else .load tmp 2 fun value =>
      if bitAnd value 0x8000 ≠ 0 then bitOr value 0xffff0000 else bitAnd value 0xffff
  | .lhu =>
    if tmp % 2 ≠ 0 then .raise .addressErrorException tmp
    else .load tmp 2 fun value => bitAnd value 0xffff
  | .lui => .goOn [(i.rt, shiftLeft i.extra 16)] pcAfter
  | .lw =>
    if tmp % 4 ≠ 0 then .raise .addressErrorException tmp
    else .load tmp 4 fun value => value
  | .lwl => .load (tmp - tmp % 4) 4 fun value => insertLeft o.old value (shiftOf tmp)
  | .lwr => .load (tmp - tmp % 4) 4 fun value => insertRight o.old value (shiftOf tmp)
  | .mfhi => .goOn [(i.rd, o.hi)] pcAfter
  | .mflo => .goOn [(i.rd, o.lo)] pcAfter
  | .mthi => .goOn [(hiReg, o.rs)] pcAfter
  | .mtlo => .goOn [(loReg, o.rs)] pcAfter
  | .mult =>
    let p := mult o.rs o.rt true
    .goOn [(hiReg, p.1), (loReg, p.2)] pcAfter
  | .multu =>
    let p := mult o.rs o.rt false
    .goOn [(hiReg, p.1), (loReg, p.2)] pcAfter
  | .nor => .goOn [(i.rd, bitNot (bitOr o.rs o.rt))] pcAfter
  | .or => .goOn [(i.rd, bitOr o.rs o.rt)] pcAfter
  | .ori => .goOn [(i.rt, bitOr o.rs (bitAnd i.extra 0xffff))] pcAfter
  | .sb => .store tmp 1 o.rt
  | .sh => .store tmp 2 o.rt
  | .sll => .goOn [(i.rd, shiftLeft o.rt i.extra.toNat)] pcAfter
  | .sllv => .goOn [(i.rd, shiftLeft o.rt (shamt o.rs))] pcAfter
  | .slt => .goOn [(i.rd, if o.rs < o.rt then 1 else 0)] pcAfter
  | .slti => .goOn [(i.rt, if o.rs < i.extra then 1 else 0)] pcAfter
  | .sltiu => .goOn [(i.rt, if unsigned o.rs < unsigned i.extra then 1 else 0)] pcAfter
  | .sltu => .goOn [(i.rd, if unsigned o.rs < unsigned o.rt then 1 else 0)] pcAfter
  -- `tmp` is an `int`, so that `SRL` and `SRLV` keep the sign as well
  | .sra | .srl => .goOn [(i.rd, shiftRight o.rt i.extra.toNat)] pcAfter
  | .srav | .srlv => .goOn [(i.rd, shiftRight o.rt (shamt o.rs))] pcAfter
  | .sub =>
    let diff := wrap (o.rs - o.rt)
    if signBit (bitXor o.rs o.rt) && signBit (bitXor o.rs diff) then .raise .overflowException 0
    else .goOn [(i.rd, diff)] pcAfter
  | .subu => .goOn [(i.rd, wrap (o.rs - o.rt))] pcAfter
  | .sw => .store tmp 4 o.rt
  | .swl => .merge (tmp - tmp % 4) fun value => storeLeft o.rt value (shiftOf tmp)
  | .swr => .merge (tmp - tmp % 4) fun value => storeRight o.rt value (shiftOf tmp)
  | .syscall => .raise .syscallException 0
  | .xor => .goOn [(i.rd, bitXor o.rs o.rt)] pcAfter
  | .xori => .goOn [(i.rt, bitXor o.rs (bitAnd i.extra 0xffff))] pcAfter
  | .res | .unimp => .raise .illegalInstrException 0
  | .rfe => .crash

def readsRs (i : Instruction) : Bool :=
  match i.opCode with
  | .j | .jal | .lui | .mfhi | .mflo | .sll | .sra | .srl | .syscall | .res | .unimp
  | .rfe => false
  | _ => true

/-- The switch reads `registers[rt]`, otherwise than as the old value of a load. -/
def readsRt (i : Instruction) : Bool :=
  match i.opCode with
  | .add | .addu | .and | .beq | .bne | .div | .divu | .mult | .multu | .nor | .or | .sb | .sh
  | .sll | .sllv | .slt | .sltu | .sra | .srav | .srl | .srlv | .sub | .subu | .sw | .swl
  | .swr | .xor => true
  | _ => false

/-- The general-purpose registers an instruction reads; the bytes that `LWL` and `LWR` keep
are taken past the pending load and not listed. -/
def reads (i : Instruction) : List ℕ :=
  (if i.readsRs then [(i.rs : ℕ)] else []) ++ (if i.readsRt then [(i.rt : ℕ)] else [])

def isLoad (i : Instruction) : Bool :=
  match i.opCode with
  | .lb | .lbu | .lh | .lhu | .lw | .lwl | .lwr => true
  | _ => false

/-- The register that is loaded after the next instruction, or 0. -/
def target (i : Instruction) : Int := if i.isLoad then (i.rt : ℕ) else 0

/-- The registers that the switch itself writes, the target of a load not among them. -/
def writes (i : Instruction) : List ℕ :=
  match i.opCode with
  | .add | .addu | .and | .jalr | .mfhi | .mflo | .nor | .or | .sll | .sllv | .slt | .sltu
  | .sra | .srav | .srl | .srlv | .sub | .subu | .xor => [(i.rd : ℕ)]
  | .addi | .addiu | .andi | .lui | .ori | .slti | .sltiu | .xori => [(i.rt : ℕ)]
  | .bgezal | .bltzal | .jal => [r31]
  | .div | .divu => [loReg, hiReg]
  | .mult | .multu => [hiReg, loReg]
  | .mthi => [hiReg]
  | .mtlo => [loReg]
  | _ => []

def transfers (i : Instruction) : Bool :=
  match i.opCode with
  | .beq | .bgez | .bgezal | .bgtz | .blez | .bltz | .bltzal | .bne | .j | .jal | .jalr
  | .jr => true
  | _ => false

variable {i : Instruction} {o o' : Operands}

theorem effect_rs (h : i.readsRs = false) (x : Int) :
    i.effect { o with rs := x } = i.effect o := by
  obtain ⟨op, rs, rt, rd, extra⟩ := i
  cases op <;> first | exact Bool.noConfusion h | rfl

theorem effect_rt (h : i.readsRt = false) (x : Int) :
    i.effect { o with rt := x } = i.effect o := by
  obtain ⟨op, rs, rt, rd, extra⟩ := i
  cases op <;> first | exact Bool.noConfusion h | rfl

theorem effect_congr (hrs : i.readsRs = true → o.rs = o'.rs)
    (hrt : i.readsRt = true → o.rt = o'.rt) (hhi : o.hi = o'.hi) (hlo : o.lo = o'.lo)
    (hpc : o.nextPC = o'.nextPC) (hold : o.old = o'.old) : i.effect o = i.effect o' := by
  have hrs' : i.effect o = i.effect { o with rs := o'.rs } := by
    cases h : i.readsRs with
    | true => rw [← hrs h]
    | false => exact (effect_rs h _).symm
  have hrt' : i.effect { o with rs := o'.rs } = i.effect { o with rs := o'.rs, rt := o'.rt } := by
    cases h : i.readsRt with
    | true => rw [← hrt h]
    | false => exact (effect_rt h _).symm
  rw [hrs', hrt', hhi, hlo, hpc, hold]

theorem effect_old (x : Int) : i.effect { o with old := x } = i.effect o ∨
    ∃ addr size extend extend', i.effect o = .load addr size extend ∧
      i.effect { o with old := x } = .load addr size extend' := by
  obtain ⟨op, rs, rt, rd, extra⟩ := i
  cases op
  case lwl | lwr => exact .inr ⟨_, _, _, _, rfl, rfl⟩
  all_goals exact .inl rfl

inductive Fits (i : Instruction) (o : Operands) : Effect → Prop
  | goOn {ws : List (ℕ × Int)} {pcAfter : Int} : i.isLoad = false →
      ws.map Prod.fst = i.writes → (i.transfers = false → pcAfter = wrap (o.nextPC + 4)) →
      Fits i o (.goOn ws pcAfter)
  | load {addr size : Int} {extend : Int → Int} : i.isLoad = true →
      Fits i o (.load addr size extend)
  | store {addr size value : Int} : i.isLoad = false → Fits i o (.store addr size value)
  | merge {addr : Int} {insert : Int → Int} : i.isLoad = false → Fits i o (.merge addr insert)
  | raise {which : ExceptionType} {badVAddr : Int} : Fits i o (.raise which badVAddr)
  | crash : Fits i o .crash

theorem effect_fits (i : Instruction) (o : Operands) : Fits i o (i.effect o) := by
  obtain ⟨op, rs, rt, rd, extra⟩ := i
  cases op
  case add | addi | lh | lhu | lw | div | divu | sub =>
    simp only [effect]
    split_ifs <;>
      first
        | exact .goOn rfl rfl fun _ => rfl
        | exact .load rfl
        | exact .raise
        | exact .crash
  all_goals
    first
      | exact .goOn rfl rfl fun _ => rfl
      | exact .goOn rfl rfl fun h => Bool.noConfusion h
      | exact .load rfl
      | exact .store rfl
      | exact .merge rfl
      | exact .raise
      | exact .crash

theorem writes_lt (i : Instruction) {r : ℕ} (h : r ∈ i.writes) : r < pcReg := by
  obtain ⟨op, rs, rt, rd, extra⟩ := i
  have hrt : (rt : ℕ) < 32 := rt.isLt
  have hrd : (rd : ℕ) < 32 := rd.isLt
  cases op <;> simp [writes, r31, hiReg, loReg, pcReg] at h ⊢ <;> omega

end Instruction

namespace Machine

/-- What the switch leaves for the end of `OneInstruction`. -/
structure Next where
  pcAfter : Int
  nextLoadReg : Int
  nextLoadValue : Int

def setRegisters (m : Machine) (writes : List (ℕ × Int)) : Machine :=
  writes.foldl (fun m w => m.setRegister w.1 w.2) m

def execute (m : Machine) (i : Instruction) : Outcome Next :=
  let pcAfter := wrap (m.registers nextPCReg + 4)
  match i.effect (i.operands m.registers) with
  | .goOn writes pcAfter => .done ⟨pcAfter, 0, 0⟩ (m.setRegisters writes)
  | .load addr size extend =>
    (m.readMem addr size).bind fun value m' => .done ⟨pcAfter, i.rt, extend value⟩ m'
  | .store addr size value =>
    (m.writeMem addr size value).bind fun _ m' => .done ⟨pcAfter, 0, 0⟩ m'
  | .merge addr insert =>
    (m.readMem addr 4).bind fun value m' =>
      (m'.writeMem addr 4 (insert value)).bind fun _ m'' => .done ⟨pcAfter, 0, 0⟩ m''
  | .raise which badVAddr => .raised which (m.raiseException badVAddr)
  | .crash => .abort

def fetch (m : Machine) : Outcome Instruction :=
  (m.readMem (m.registers pcReg) 4).bind fun raw m' => .done (.decode raw) m'

/-- After the switch: the pending load is done and the program counters advance. -/
def complete (m : Machine) (next : Next) : Machine :=
  (m.delayedLoad next.nextLoadReg next.nextLoadValue).advance next.pcAfter

/-- An exception ends the instruction: `raised` holds the machine as `ExceptionHandler`
gets it. -/
def oneInstruction (m : Machine) : Outcome Unit :=
  m.fetch.bind fun i m₁ => (m₁.execute i).bind fun next m₂ => .done () (m₂.complete next)

end Machine
end Nachos
