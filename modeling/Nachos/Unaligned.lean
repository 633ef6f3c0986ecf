import Nachos.Alu
import Nachos.BadPointer
import Nachos.DelayedLoads
import Nachos.Lib.Buffers
import Nachos.Lib.ByteMerge

namespace Nachos
open TwosComplement Buffers ByteMerge

namespace Instruction
variable {k : ℕ} (old value rt : Int)

theorem word_insertLeft (hk : k < 4) :
    word (insertLeft old value k) = above k (word old) (word value) := by
  interval_cases k
  · simp [insertLeft, above, mask]
  all_goals
    simp only [insertLeft, bitOr, bitAnd, shiftLeft, word_toInt]
    rfl

theorem word_insertRight (hk : k < 4) :
    word (insertRight old value k) = below (k + 1) (3 - k) (word old) (word value) := by
  interval_cases k
  case «3» =>
    have hmask : mask 32 4 = BitVec.allOnes 32 := by decide
    rw [below, hmask, BitVec.not_allOnes, BitVec.and_zero, BitVec.zero_or, BitVec.and_allOnes]
    exact (BitVec.sshiftRight_zero).symm
  all_goals
    simp only [insertRight, bitOr, bitAnd, shiftRight, word_toInt]
    rfl

theorem word_storeLeft (hk : k < 4) :
    word (storeLeft rt value k) = below (4 - k) k (word value) (word rt) := by
  interval_cases k
  · have hmask : mask 32 4 = BitVec.allOnes 32 := by decide
    rw [below, hmask, BitVec.not_allOnes, BitVec.and_zero, BitVec.zero_or, BitVec.and_allOnes]
    exact (BitVec.sshiftRight_zero).symm
  all_goals
    simp only [storeLeft, bitOr, bitAnd, shiftRight, word_toInt]
    rfl

theorem word_storeRight (hk : k < 4) :
    word (storeRight rt value k) = above (3 - k) (word value) (word rt) := by
  interval_cases k
  case «3» => simp [storeRight, above, mask]
  all_goals
    simp only [storeRight, bitOr, bitAnd, shiftLeft, word_toInt]
    rfl

end Instruction

namespace Machine

theorem byteOf_eq (x : Int) (j : ℕ) : byteOf x j = .ofBitVec (byte (word x) j) := by
  apply UInt8.toNat_inj.mp
  rw [byteOf, UInt8.toNat_ofNat', UInt8.toNat_ofBitVec, byte, BitVec.toNat_setWidth,
    BitVec.toNat_ushiftRight, toNat_word, Nat.shiftRight_eq_div_pow, Nat.pow_mul]
  simp

section Bytes
open Instruction
variable {k j : ℕ} (hk : k < 4) (hj : j < 4) (old value rt : Int)
include hk hj

theorem byteOf_insertLeft : byteOf (insertLeft old value k) j =
    if j < k then byteOf old j else byteOf value (j - k) := by
  rw [byteOf_eq, word_insertLeft _ _ hk, byte_above (by omega), apply_ite UInt8.ofBitVec,
    ← byteOf_eq, ← byteOf_eq]

theorem byteOf_insertRight : byteOf (insertRight old value k) j =
    if j < k + 1 then byteOf value (j + (3 - k)) else byteOf old j := by
  rw [byteOf_eq, word_insertRight _ _ hk, byte_below (by omega) (by omega),
    apply_ite UInt8.ofBitVec, ← byteOf_eq, ← byteOf_eq]

theorem byteOf_storeLeft : byteOf (storeLeft rt value k) j =
    if j < 4 - k then byteOf rt (j + k) else byteOf value j := by
  rw [byteOf_eq, word_storeLeft _ _ hk, byte_below (by omega) (by omega),
    apply_ite UInt8.ofBitVec, ← byteOf_eq, ← byteOf_eq]

theorem byteOf_storeRight : byteOf (storeRight rt value k) j =
    if j < 3 - k then byteOf value j else byteOf rt (j - (3 - k)) := by
  rw [byteOf_eq, word_storeRight _ _ hk, byte_above (by omega), apply_ite UInt8.ofBitVec,
    ← byteOf_eq, ← byteOf_eq]

end Bytes

theorem unsigned_eq_littleEndian (x : Int) : unsigned x = littleEndian (byteOf x) 4 := by
  have hlt : unsigned x < 4294967296 := by
    unfold unsigned
    omega
  simp only [littleEndian, Finset.sum_range_succ, Finset.sum_range_zero, byteOf,
    UInt8.toNat_ofNat']
  omega

theorem load_four (mem : Memory) (pa : Int) : load mem pa 4 =
    some (wrap ((mem (pa + (0 : ℕ))).toNat + 256 * (mem (pa + (1 : ℕ))).toNat +
      65536 * (mem (pa + (2 : ℕ))).toNat + 16777216 * (mem (pa + (3 : ℕ))).toNat)) := by
  rw [load, if_neg (by decide), if_neg (by decide), if_pos rfl]

theorem byteOf_load {mem : Memory} {pa v : Int} (h : load mem pa 4 = some v) {j : ℕ} (hj : j < 4) :
    byteOf v j = mem (pa + j) := by
  rw [load_four] at h
  obtain rfl := Option.some.inj h
  have h0 := (mem (pa + (0 : ℕ))).toNat_lt
  have h1 := (mem (pa + (1 : ℕ))).toNat_lt
  have h2 := (mem (pa + (2 : ℕ))).toNat_lt
  have h3 := (mem (pa + (3 : ℕ))).toNat_lt
  apply UInt8.toNat_inj.mp
  rw [byteOf, UInt8.toNat_ofNat']
  unfold unsigned wrap
  interval_cases j <;> omega

section Enclosing
variable {m : Machine} (htlb : m.tlb = none) {x p : Int} {writing : Bool}
include htlb

theorem translate_enclosing (h : (m.translate x 1 writing).seen = some (.inr p)) (writing' : Bool)
    (hw : writing' = true → writing = true) :
    (m.translate (x - x % 4) 4 writing').seen = some (.inr (p - x % 4)) ∧ p % 4 = x % 4 := by
  have hal : misaligned x 1 = false := by simp [misaligned]
  have hal' : misaligned (x - x % 4) 4 = false := by simp [misaligned]
  -- the aligned word is in the same page, and so in the same frame
  have hpage : unsigned (x - x % 4) / pageSize = unsigned x / pageSize := by
    unfold unsigned pageSize
    omega
  have hoffset : (unsigned (x - x % 4) % pageSize : ℕ) = (unsigned x % pageSize : ℕ) - x % 4 ∧
      ((unsigned x % pageSize : ℕ) : Int) % 4 = x % 4 ∧
      ((unsigned x % pageSize : ℕ) : Int) - x % 4 + 4 ≤ pageSize := by
    unfold unsigned pageSize
    omega
  cases ht : m.pageTable with
  | none => simp [translate, htlb, ht, hal, Outcome.seen] at h
  | some t =>
    rw [translate_eq htlb ht, if_neg (by simp [hal])] at h
    rw [translate_eq htlb ht, if_neg (by simp [hal']), hpage]
    split_ifs at h ⊢ with hsize
    · cases h
    · split at h
      · cases h
      · next e he =>
        dsimp only at h ⊢
        split_ifs at h with hvalid hro hframe hend
        · cases h
        · cases h
        · cases h
        · obtain rfl : _ = p := Sum.inr.inj (Option.some.inj h)
          have hro' : ¬(e.readOnly && writing') = true := by
            simp only [Bool.and_eq_true] at hro ⊢
            exact fun h => hro ⟨h.1, hw h.2⟩
          have hbound := Nat.mul_le_mul_right pageSize (not_le.mp hframe)
          have hend' : ((unsigned e.physicalPage * pageSize +
              unsigned (x - x % 4) % pageSize : ℕ) : Int) + 4 ≤ memorySize := by
            unfold memorySize pageSize at *
            omega
          rw [if_neg hvalid, if_neg hro', if_neg hframe, if_pos hend', Outcome.seen]
          unfold pageSize at *
          constructor
          · congr 2
            omega
          · omega
        · cases h

theorem readMem_enclosing (h : (m.translate x 1 writing).seen = some (.inr p)) :
    ∃ v m', m.readMem (x - x % 4) 4 = .done v m' ∧ m'.image = m.image ∧
      ∀ j < 4, byteOf v j = m.mainMemory (p - x % 4 + j) := by
  have hseen := (translate_enclosing htlb h false (by simp)).1
  obtain ⟨v, hload⟩ : ∃ v, load m.mainMemory (p - x % 4) 4 = some v := ⟨_, load_four _ _⟩
  obtain ⟨m', hread⟩ := Outcome.done_of_seen
    (show (m.readMem (x - x % 4) 4).seen = some (.inr v) by
      rw [readMem_seen, hseen]
      simp only [Option.bind_some, hload, Option.map_some])
  exact ⟨v, m', hread, readMem_image hread, fun j hj => byteOf_load hload hj⟩

theorem writeMem_enclosing (h : (m.translate x 1 true).seen = some (.inr p)) (value : Int) :
    ∃ m', m.writeMem (x - x % 4) 4 value = .done () m' ∧ m'.layout = m.layout ∧
      ∀ y, m'.mainMemory y = if p - x % 4 ≤ y ∧ y < p - x % 4 + 4 then
        byteOf value (y - (p - x % 4)).toNat else m.mainMemory y := by
  obtain ⟨m₁, htranslate⟩ := Outcome.done_of_seen (translate_enclosing htlb h true fun _ => rfl).1
  have himage := translate_image htranslate
  have hmem : m₁.mainMemory = m.mainMemory := congrArg Prod.snd himage
  let mem : Memory := fun y =>
    if p - x % 4 ≤ y ∧ y < p - x % 4 + 4 then byteOf value (y - (p - x % 4)).toNat
    else m.mainMemory y
  refine ⟨{ m₁ with mainMemory := mem }, ?_, congrArg Prod.fst himage, fun y => rfl⟩
  rw [writeMem, htranslate]
  simp only [store, hmem]
  rfl

end Enclosing

/-- `LWL` and `SWL`, or `LWR` and `SWR`. -/
inductive Half where
  | left | right
  deriving DecidableEq, Repr

namespace Half

def other : Half → Half
  | left => right
  | right => left

def loadOp : Half → OpCode
  | left => .lwl
  | right => .lwr

def storeOp : Half → OpCode
  | left => .swl
  | right => .swr

/-- The address that the instruction is given, for the word at `a`. -/
def address (a : Int) : Half → Int
  | left => wrap (a + 3)
  | right => a

def index : Half → ℕ
  | left => 3
  | right => 0

/-- The bytes of the word that lie in the aligned word around that address. -/
def Covers (a : Int) (k : ℕ) : Half → Prop
  | left => 3 - (a + 3) % 4 ≤ k
  | right => k < 4 - a % 4

/-- What a load makes of the aligned word `value` around the address `x`. -/
def loaded (old value x : Int) : Half → Int
  | left => Instruction.insertLeft old value (Instruction.shiftOf x)
  | right => Instruction.insertRight old value (Instruction.shiftOf x)

/-- What a store of `rt` makes of it. -/
def stored (rt value x : Int) : Half → Int
  | left => Instruction.storeLeft rt value (Instruction.shiftOf x)
  | right => Instruction.storeRight rt value (Instruction.shiftOf x)

theorem covers_or (half : Half) (a : Int) {k : ℕ} (hk : k < 4) :
    half.Covers a k ∨ half.other.Covers a k := by
  cases half <;> simp only [Covers, other] <;> omega

theorem shiftOf_address (half : Half) (a : Int) : (Instruction.shiftOf (half.address a) : Int) =
    3 - (a + half.index) % 4 := by
  cases half <;> simp only [address, index, Instruction.shiftOf, wrap] <;> omega

theorem byteOf_loaded (half : Half) {a : Int} {k : ℕ} (hk : k < 4) (old value : Int) :
    (half.Covers a k → byteOf (half.loaded old value (half.address a)) k =
      byteOf value ((a + k) % 4).toNat) ∧
    (¬half.Covers a k → byteOf (half.loaded old value (half.address a)) k = byteOf old k) := by
  have hshift := half.shiftOf_address a
  cases half with
  | left =>
    simp only [loaded, Covers, index] at hshift ⊢
    rw [byteOf_insertLeft (by omega) hk]
    refine ⟨fun hc => ?_, fun hc => if_pos (by omega)⟩
    rw [if_neg (by omega)]
    congr 1
    omega
  | right =>
    simp only [loaded, Covers, index] at hshift ⊢
    rw [byteOf_insertRight (by omega) hk]
    refine ⟨fun hc => ?_, fun hc => if_neg (by omega)⟩
    rw [if_pos (by omega)]
    congr 1
    omega

theorem byteOf_stored (half : Half) {a : Int} {j : ℕ} (hj : j < 4) (rt value : Int) :
    (∀ k < 4, half.Covers a k → (j : Int) = (a + k) % 4 →
      byteOf (half.stored rt value (half.address a)) j = byteOf rt k) ∧
    ((∀ k : ℕ, k < 4 → half.Covers a k → (j : Int) ≠ (a + k) % 4) →
      byteOf (half.stored rt value (half.address a)) j = byteOf value j) := by
  have hshift := half.shiftOf_address a
  cases half with
  | left =>
    simp only [stored, Covers, index] at hshift ⊢
    rw [byteOf_storeLeft (by omega) hj]
    constructor
    · intro k hk hc hplace
      rw [if_pos (by omega)]
      congr 1
      omega
    · intro hnot
      refine if_neg fun hlt => hnot (j + Instruction.shiftOf (left.address a)) ?_ ?_ ?_ <;> omega
  | right =>
    simp only [stored, Covers, index] at hshift ⊢
    rw [byteOf_storeRight (by omega) hj]
    constructor
    · intro k hk hc hplace
      rw [if_neg (by omega)]
      congr 1
      omega
    · intro hnot
      refine if_pos (by_contra fun hlt =>
        hnot (j - (3 - Instruction.shiftOf (right.address a))) ?_ ?_ ?_) <;> omega

end Half

/-- The bytes of the word at `a` are mapped to `pa 0`, …, `pa 3`. -/
def MappedWord (m : Machine) (a : Int) (writing : Bool) (pa : ℕ → Int) : Prop :=
  ∀ k : ℕ, k < 4 → (m.translate (wrap (a + k)) 1 writing).seen = some (.inr (pa k))

def nextAccess (m : Machine) : Outcome (OpCode × Fin numGPRegs × Int) :=
  m.fetch.bind fun i m₁ => .done (i.opCode, i.rt, i.address (i.operands m.registers)) m₁

/-- The next instruction is `op` with the register `rt` and the address `addr`. -/
def Fetches (m : Machine) (op : OpCode) (rt : Fin numGPRegs) (addr : Int) : Prop :=
  m.nextAccess.seen = some (.inr (op, rt, addr))

theorem Fetches.fetch {m : Machine} {op : OpCode} {rt : Fin numGPRegs} {addr : Int}
    (h : m.Fetches op rt addr) : ∃ i m₁, m.fetch = .done i m₁ ∧ i.opCode = op ∧ i.rt = rt ∧
      i.address (i.operands m.registers) = addr := by
  obtain ⟨m', h⟩ := Outcome.done_of_seen h
  obtain ⟨i, m₁, hfetch, h⟩ := Outcome.bind_done h
  cases h
  exact ⟨i, _, hfetch, rfl, rfl, rfl⟩

section Mapped
variable {m m' : Machine} {a : Int} {writing : Bool} {pa : ℕ → Int}

theorem MappedWord.of_layout (htlb : m.tlb = none) (h : m.MappedWord a writing pa)
    (hlayout : m'.layout = m.layout) : m'.MappedWord a writing pa := fun k hk =>
  (translate_seen_layout htlb hlayout ..).trans (h k hk)

theorem MappedWord.enclosing (htlb : m.tlb = none) (h : m.MappedWord a writing pa) {k : ℕ}
    (hk : k < 4) : (m.translate (wrap (a + k) - (a + k) % 4) 4 writing).seen =
      some (.inr (pa k - (a + k) % 4)) ∧ pa k % 4 = (a + k) % 4 := by
  have hmod : wrap (a + k) % 4 = (a + k) % 4 := by
    unfold wrap
    omega
  have := translate_enclosing htlb (h k hk) writing id
  rwa [hmod] at this

theorem MappedWord.beside (htlb : m.tlb = none) (h : m.MappedWord a writing pa) {k l : ℕ}
    (hk : k < 4) (hl : l < 4) (hsame : (a + k) / 4 = (a + l) / 4) : pa k - pa l = k - l := by
  have hk' := (h.enclosing htlb hk).1
  have hl' := (h.enclosing htlb hl).1
  have haddr : wrap (a + k) - (a + k) % 4 = wrap (a + l) - (a + l) % 4 := by
    unfold wrap
    omega
  rw [haddr] at hk'
  have heq : pa k - (a + k) % 4 = pa l - (a + l) % 4 :=
    Sum.inr.inj (Option.some.inj (hk'.symm.trans hl'))
  omega

theorem MappedWord.covered (htlb : m.tlb = none) (h : m.MappedWord a writing pa) {half : Half}
    {k : ℕ} (hk : k < 4) (hc : half.Covers a k) :
    pa k - (a + k) % 4 = pa half.index - half.address a % 4 := by
  cases half with
  | left =>
    have hbeside := h.beside htlb hk (show 3 < 4 by decide)
      (by simp only [Half.Covers] at hc; omega)
    simp only [Half.Covers, Half.index, Half.address, wrap] at hc ⊢
    omega
  | right =>
    have hbeside := h.beside htlb hk (show 0 < 4 by decide)
      (by simp only [Half.Covers] at hc; omega)
    simp only [Half.Covers, Half.index, Half.address] at hc ⊢
    omega

theorem MappedWord.half (h : m.MappedWord a writing pa) (ha : IsInt a) (half : Half) :
    (m.translate (half.address a) 1 writing).seen = some (.inr (pa half.index)) := by
  cases half with
  | left => exact h 3 (by decide)
  | right =>
    have := h 0 (by decide)
    rwa [Nat.cast_zero, add_zero, wrap_of_range ha.1 ha.2] at this

theorem MappedWord.inj (htlb : m.tlb = none) (h : m.MappedWord a writing pa) {k l : ℕ}
    (hk : k < 4) (hl : l < 4) (heq : pa k = pa l) : k = l := by
  have hk' := (h.enclosing htlb hk).2
  have hl' := (h.enclosing htlb hl).2
  omega

end Mapped

section Step
variable {m m₁ m₂ : Machine} {i : Instruction} {addr v : Int}

theorem fetch_image (h : m.fetch = .done i m₁) : m₁.image = m.image := by
  obtain ⟨raw, m', hread, h⟩ := Outcome.bind_done h
  cases h
  exact readMem_image hread

theorem flush_gp (hnonneg : 0 ≤ m.registers loadReg) {d : ℕ} (hd : d < numGPRegs) (hne : d ≠ 0) :
    m.flush.registers d =
      if m.registers loadReg = d then m.registers loadValueReg else m.registers d := by
  rw [flush_registers, if_neg hne, if_neg (hd.trans (by decide)).ne,
    if_neg (hd.trans (by decide)).ne]
  exact if_congr (by omega) rfl rfl

theorem operands_old (hs : SoundRegisters m.registers) (hrt : (i.rt : ℕ) ≠ 0) :
    (i.operands m.registers).old = m.flush.registers i.rt :=
  (flush_gp hs.load_nonneg i.rt.isLt hrt).symm

theorem oneInstruction_load (hs : SoundRegisters m.registers) (hrt : (i.rt : ℕ) ≠ 0)
    (hfetch : m.fetch = .done i m₁) {extend : Int → Int}
    (heffect : i.effect (i.operands m.registers) = .load addr 4 extend)
    (hread : m₁.readMem addr 4 = .done v m₂) :
    ∃ m', m.oneInstruction = .done () m' ∧ m'.image = m.image ∧ SoundRegisters m'.registers ∧
      m'.flush.registers i.rt = extend v := by
  have hregs := (fetch_done hfetch).1
  have hregs₂ := (readMem_registers hread).trans hregs
  have hone : m.oneInstruction = .done ()
      (m₂.complete ⟨wrap (m.registers nextPCReg + 4), (i.rt : ℕ), extend v⟩) := by
    rw [oneInstruction, hfetch]
    change (m₁.execute i).bind _ = _
    rw [execute, hregs, heffect]
    dsimp only
    rw [hread]
    rfl
  have hlt : m₂.registers loadReg < numGPRegs := hregs₂ ▸ hs.load_lt
  obtain ⟨-, -, -, hload, hvalue, -⟩ :=
    complete_registers hlt ⟨wrap (m.registers nextPCReg + 4), (i.rt : ℕ), extend v⟩
  refine ⟨_, hone, (readMem_image hread).trans (fetch_image hfetch), ?_, ?_⟩
  · exact (oneInstruction_inArray hs (by rw [hone]; rfl)).sound
  · rw [flush_gp (by rw [hload]; exact Int.natCast_nonneg _) i.rt.isLt hrt, if_pos hload, hvalue]

theorem oneInstruction_merge {n : Machine} (hs : SoundRegisters m.registers)
    (hrt : (i.rt : ℕ) ≠ 0) (hpending : m.registers loadReg ≠ (i.rt : ℕ))
    (hfetch : m.fetch = .done i m₁) {insert : Int → Int}
    (heffect : i.effect (i.operands m.registers) = .merge addr insert)
    (hread : m₁.readMem addr 4 = .done v m₂) (hwrite : m₂.writeMem addr 4 (insert v) = .done () n) :
    ∃ m', m.oneInstruction = .done () m' ∧ m'.image = n.image ∧ SoundRegisters m'.registers ∧
      m'.registers loadReg = 0 ∧ m'.registers i.rt = m.registers i.rt := by
  have hregs := (fetch_done hfetch).1
  have hregsn := (writeMem_registers hwrite).trans ((readMem_registers hread).trans hregs)
  have hone : m.oneInstruction =
      .done () (n.complete ⟨wrap (m.registers nextPCReg + 4), 0, 0⟩) := by
    rw [oneInstruction, hfetch]
    change (m₁.execute i).bind _ = _
    rw [execute, hregs, heffect]
    dsimp only
    rw [hread]
    change ((m₂.writeMem addr 4 (insert v)).bind _).bind _ = _
    rw [hwrite]
    rfl
  have hlt : n.registers loadReg < numGPRegs := hregsn ▸ hs.load_lt
  have hnonneg : 0 ≤ n.registers loadReg := hregsn ▸ hs.load_nonneg
  refine ⟨_, hone, rfl, (oneInstruction_inArray hs (by rw [hone]; rfl)).sound, ?_, ?_⟩
  · exact (complete_registers hlt _).2.2.2.1
  · rw [complete_gp hnonneg i.rt.isLt, if_neg hrt, hregsn, if_neg hpending]

end Step

section HalfStep
variable {m : Machine} {a : Int} {pa : ℕ → Int} {rt : Fin numGPRegs} {half : Half}

theorem effect_loadOp {i : Instruction} (hop : i.opCode = half.loadOp) {o : Operands} {x : Int}
    (haddr : i.address o = x) :
    i.effect o = .load (x - x % 4) 4 fun value => half.loaded o.old value x := by
  cases half <;> rw [Instruction.effect, hop, haddr] <;> rfl

theorem effect_storeOp {i : Instruction} (hop : i.opCode = half.storeOp) {o : Operands} {x : Int}
    (haddr : i.address o = x) :
    i.effect o = .merge (x - x % 4) fun value => half.stored o.rt value x := by
  cases half <;> rw [Instruction.effect, hop, haddr] <;> rfl

/-- A load merges the bytes it covers into what is on its way to the register. -/
theorem half_load (htlb : m.tlb = none) (hs : SoundRegisters m.registers) (ha : IsInt a)
    (h : m.MappedWord a false pa) (hrt : (rt : ℕ) ≠ 0)
    (hf : m.Fetches half.loadOp rt (half.address a)) :
    ∃ m', m.oneInstruction = .done () m' ∧ m'.image = m.image ∧ SoundRegisters m'.registers ∧
      ∀ k < 4, (half.Covers a k → byteOf (m'.flush.registers rt) k = m.mainMemory (pa k)) ∧
        (¬half.Covers a k →
          byteOf (m'.flush.registers rt) k = byteOf (m.flush.registers rt) k) := by
  obtain ⟨i, m₁, hfetch, hop, rfl, haddr⟩ := hf.fetch
  have himage := fetch_image hfetch
  have htlb₁ := tlb_of_layout htlb (congrArg Prod.fst himage)
  have hmem : m₁.mainMemory = m.mainMemory := congrArg Prod.snd himage
  have h₁ := h.of_layout htlb (congrArg Prod.fst himage)
  obtain ⟨v, m₂, hread, -, hv⟩ := readMem_enclosing htlb₁ (h₁.half ha half)
  obtain ⟨m', hone, himage', hs', hflush⟩ :=
    oneInstruction_load hs hrt hfetch (effect_loadOp hop haddr) hread
  refine ⟨m', hone, himage', hs', fun k hk => ?_⟩
  rw [hflush, operands_old hs hrt]
  refine (half.byteOf_loaded hk _ v).imp (fun hbyte hc => ?_) id
  have hplace := h.covered htlb hk hc
  rw [hbyte hc, hv _ (by omega), hmem]
  congr 1
  omega

/-- A store puts the bytes it covers into the memory and keeps all others. -/
theorem half_store (htlb : m.tlb = none) (hs : SoundRegisters m.registers) (ha : IsInt a)
    (h : m.MappedWord a true pa) (hrt : (rt : ℕ) ≠ 0) (hpending : m.registers loadReg ≠ (rt : ℕ))
    (hf : m.Fetches half.storeOp rt (half.address a)) :
    ∃ m', m.oneInstruction = .done () m' ∧ m'.layout = m.layout ∧ SoundRegisters m'.registers ∧
      m'.registers loadReg = 0 ∧ m'.registers rt = m.registers rt ∧
      (∀ k < 4, half.Covers a k → m'.mainMemory (pa k) = byteOf (m.registers rt) k) ∧
      ∀ y, (∀ k < 4, half.Covers a k → y ≠ pa k) → m'.mainMemory y = m.mainMemory y := by
  obtain ⟨i, m₁, hfetch, hop, rfl, haddr⟩ := hf.fetch
  have himage := fetch_image hfetch
  have htlb₁ := tlb_of_layout htlb (congrArg Prod.fst himage)
  have h₁ := h.of_layout htlb (congrArg Prod.fst himage)
  -- the aligned word is read, the covered bytes are put into it, and it is written back
  obtain ⟨v, m₂, hread, himage₂, hv⟩ := readMem_enclosing htlb₁ (h₁.half ha half)
  have himage₂' := himage₂.trans himage
  have hmem₁ : m₁.mainMemory = m.mainMemory := congrArg Prod.snd himage
  have hmem₂ : m₂.mainMemory = m.mainMemory := congrArg Prod.snd himage₂'
  have htlb₂ := tlb_of_layout htlb (congrArg Prod.fst himage₂')
  have h₂ := h.of_layout htlb (congrArg Prod.fst himage₂')
  obtain ⟨n, hwrite, hlayout, hstored⟩ := writeMem_enclosing htlb₂ (h₂.half ha half)
    (half.stored (m.registers i.rt) v (half.address a))
  obtain ⟨m', hone, himage', hs', hload, hkeep⟩ :=
    oneInstruction_merge hs hrt hpending hfetch (effect_storeOp hop haddr) hread hwrite
  have hmem' : m'.mainMemory = n.mainMemory := congrArg Prod.snd himage'
  refine ⟨m', hone, (congrArg Prod.fst himage').trans (hlayout.trans (congrArg Prod.fst himage₂')),
    hs', hload, hkeep, fun k hk hc => ?_, fun y hy => ?_⟩
  · have hplace := h.covered htlb hk hc
    rw [hmem', hstored, if_pos (by omega)]
    exact (half.byteOf_stored (by omega) _ v).1 k hk hc (by omega)
  · rw [hmem', hstored]
    split_ifs with hin
    · rw [(half.byteOf_stored (by omega) _ v).2 fun k hk hc hplace => hy k hk hc ?_,
        hv _ (by omega), hmem₁]
      · congr 1
        omega
      · have := h.covered htlb hk hc
        omega
    · rw [hmem₂]

end HalfStep

theorem image_flush (m : Machine) : m.flush.image = m.image := rfl

theorem sound_flush {m : Machine} (hs : SoundRegisters m.registers) :
    SoundRegisters m.flush.registers := (delayedLoad_inArray hs 0 le_rfl (by decide)).sound

/-- The two halves of a load bring in the word at `a`, and the two halves of a store put the
register there and change no other byte, in either order and with or without an interrupt between
them.  A store reads the register itself: a load that is pending into it would come between the
two. -/
theorem unaligned_access {m : Machine} (htlb : m.tlb = none) (hs : SoundRegisters m.registers)
    {a : Int} (ha : IsInt a) {rt : Fin numGPRegs} (hrt : (rt : ℕ) ≠ 0) (half : Half)
    (pa : ℕ → Int) :
    (m.MappedWord a false pa → m.Fetches half.loadOp rt (half.address a) →
      ∃ m', m.oneInstruction = .done () m' ∧ ∀ n, n = m' ∨ n = m'.flush →
        n.Fetches half.other.loadOp rt (half.other.address a) →
        ∃ n', n.oneInstruction = .done () n' ∧ unsigned (n'.flush.registers rt) =
          littleEndian (fun k => m.mainMemory (pa k)) 4) ∧
    (m.MappedWord a true pa → m.registers loadReg ≠ (rt : ℕ) →
      m.Fetches half.storeOp rt (half.address a) →
      ∃ m', m.oneInstruction = .done () m' ∧ ∀ n, n = m' ∨ n = m'.flush →
        n.Fetches half.other.storeOp rt (half.other.address a) →
        ∃ n', n.oneInstruction = .done () n' ∧
          (∀ k < 4, n'.mainMemory (pa k) = byteOf (m.registers rt) k) ∧
          ∀ y, (∀ k < 4, y ≠ pa k) → n'.mainMemory y = m.mainMemory y) := by
  constructor
  · intro h hf
    obtain ⟨m', hone, himage, hs', hbytes⟩ := half_load htlb hs ha h hrt hf
    refine ⟨m', hone, fun n hn hf' => ?_⟩
    have himage' : n.image = m.image := by
      rcases hn with rfl | rfl
      · exact himage
      · exact (image_flush m').trans himage
    have hsn : SoundRegisters n.registers := by
      rcases hn with rfl | rfl
      · exact hs'
      · exact sound_flush hs'
    -- the interrupt only does what the load would do later
    have hflush : n.flush = m'.flush := by
      rcases hn with rfl | rfl
      · rfl
      · exact flush_flush m'
    have hlayout : n.layout = m.layout := congrArg Prod.fst himage'
    have hmem : n.mainMemory = m.mainMemory := congrArg Prod.snd himage'
    obtain ⟨n', hone', -, -, hbytes'⟩ := half_load (tlb_of_layout htlb hlayout) hsn ha
      (h.of_layout htlb hlayout) hrt hf'
    refine ⟨n', hone', ?_⟩
    rw [unsigned_eq_littleEndian]
    apply Finset.sum_congr rfl
    intro k hk
    have hk' := Finset.mem_range.mp hk
    congr 2
    by_cases hc : half.other.Covers a k
    · rw [(hbytes' k hk').1 hc, hmem]
    · rw [(hbytes' k hk').2 hc, hflush]
      exact (hbytes k hk').1 ((half.covers_or a hk').resolve_right hc)
  · intro h hpending hf
    obtain ⟨m', hone, hlayout, hs', hload, hkeep, hcovered, hothers⟩ :=
      half_store htlb hs ha h hrt hpending hf
    refine ⟨m', hone, fun n hn hf' => ?_⟩
    have hn' : n.layout = m'.layout ∧ n.mainMemory = m'.mainMemory ∧ SoundRegisters n.registers ∧
        n.registers loadReg = 0 ∧ n.registers rt = m'.registers rt := by
      rcases hn with rfl | rfl
      · exact ⟨rfl, rfl, hs', hload, rfl⟩
      · refine ⟨rfl, rfl, sound_flush hs', flush_registers m' loadReg, ?_⟩
        rw [flush_gp hs'.load_nonneg rt.isLt hrt, hload]
        exact if_neg (by omega)
    obtain ⟨hlayout', hmem, hsn, hloadn, hkeepn⟩ := hn'
    have hlayoutn := hlayout'.trans hlayout
    obtain ⟨n', hone', -, -, -, -, hcovered', hothers'⟩ :=
      half_store (tlb_of_layout htlb hlayoutn) hsn ha (h.of_layout htlb hlayoutn) hrt
        (by rw [hloadn]; exact_mod_cast Ne.symm hrt) hf'
    refine ⟨n', hone', fun k hk => ?_, fun y hy => ?_⟩
    · by_cases hc : half.other.Covers a k
      · rw [hcovered' k hk hc, hkeepn, hkeep]
      · rw [hothers' (pa k) fun l hl hcl heq => hc (h.inj htlb hk hl heq ▸ hcl), hmem]
        exact hcovered k hk ((half.covers_or a hk).resolve_right hc)
    · rw [hothers' y fun k hk _ => hy k hk, hmem, hothers y fun k hk _ => hy k hk]

def twoWords (instructions : List UInt8) (r2 pending v : Int) : Machine where
  mainMemory a := instructions.getD a.toNat 0
  registers k := if k = 2 then r2 else if k = nextPCReg then 4
    else if k = loadReg then pending else if k = loadValueReg then v else 0
  tlb := none
  pageTable := some [⟨0, 0, true, false, false, false⟩]
  pageTableSize := 1

/-- `SWR r2, 65(r0)` and `SWL r2, 68(r0)`, while the load of 0x55667788 into `r2` is pending,
store three bytes of the old contents and one byte of the new. -/
theorem stores_around_pending_load : ∃ m' n',
    (twoWords [65, 0, 2, 0xb8, 68, 0, 2, 0xa8] 0x11223344 2 0x55667788).oneInstruction =
      .done () m' ∧ m'.oneInstruction = .done () n' ∧
    (List.range 4).map (fun k : ℕ => n'.mainMemory (65 + k)) = [0x44, 0x33, 0x22, 0x55] :=
  ⟨_, _, rfl, rfl, by decide +kernel⟩

theorem sound_twoWords (code : List UInt8) (r2 : Int) :
    SoundRegisters (twoWords code r2 0 0).registers :=
  ⟨rfl, le_rfl, (by decide : (0 : Int) < numGPRegs)⟩

/-- `LWR r2, 1(r0)` and `LWL r2, 4(r0)`, with an interrupt between them, load bytes 1 to 4 of
their own code; `SWR r2, 65(r0)` and `SWL r2, 68(r0)` store `r2` in bytes 65 to 68. -/
theorem unaligned_access_words :
    (∃ m' n', (twoWords [1, 0, 2, 0x98, 4, 0, 2, 0x88] 0x11223344 0 0).oneInstruction =
        .done () m' ∧
      m'.flush.oneInstruction = .done () n' ∧ unsigned (n'.flush.registers 2) = 0x04980200) ∧
    ∃ m' n', (twoWords [65, 0, 2, 0xb8, 68, 0, 2, 0xa8] 0x11223344 0 0).oneInstruction =
        .done () m' ∧
      m'.oneInstruction = .done () n' ∧
      (∀ k < 4, n'.mainMemory (65 + (k : ℕ)) = byteOf 0x11223344 k) ∧ n'.mainMemory 64 = 0 ∧
      n'.mainMemory 69 = 0 := by
  have hrt : ((⟨2, by decide⟩ : Fin numGPRegs) : ℕ) ≠ 0 := by decide
  constructor
  · have hmapped : (twoWords [1, 0, 2, 0x98, 4, 0, 2, 0x88] 0x11223344 0 0).MappedWord 1 false
        fun k => 1 + k := by
      intro k hk
      interval_cases k <;> decide +kernel
    obtain ⟨m', hone, hnext⟩ := (unaligned_access rfl (sound_twoWords _ _) (by decide) hrt .right
      fun k => 1 + k).1 hmapped (by unfold Fetches; decide +kernel)
    have hsecond : ((twoWords [1, 0, 2, 0x98, 4, 0, 2, 0x88] 0x11223344 0 0).oneInstruction.bind
        fun _ m' => m'.flush.nextAccess).seen = some (.inr (.lwl, ⟨2, by decide⟩, 4)) := by
      decide +kernel
    rw [hone] at hsecond
    obtain ⟨n', hone', hword⟩ := hnext _ (.inr rfl) hsecond
    exact ⟨m', n', hone, hone', hword.trans (by decide +kernel)⟩
  · have hmapped : (twoWords [65, 0, 2, 0xb8, 68, 0, 2, 0xa8] 0x11223344 0 0).MappedWord 65 true
        fun k => 65 + k := by
      intro k hk
      interval_cases k <;> decide +kernel
    obtain ⟨m', hone, hnext⟩ := (unaligned_access rfl (sound_twoWords _ _) (by decide) hrt .right
      fun k => 65 + k).2 hmapped (by decide) (by unfold Fetches; decide +kernel)
    have hsecond : ((twoWords [65, 0, 2, 0xb8, 68, 0, 2, 0xa8] 0x11223344 0 0).oneInstruction.bind
        fun _ m' => m'.nextAccess).seen = some (.inr (.swl, ⟨2, by decide⟩, 68)) := by
      decide +kernel
    rw [hone] at hsecond
    obtain ⟨n', hone', hword, hrest⟩ := hnext _ (.inl rfl) hsecond
    exact ⟨m', n', hone, hone', hword, hrest 64 fun k _ => by omega, hrest 69 fun k _ => by omega⟩

end Machine
end Nachos
