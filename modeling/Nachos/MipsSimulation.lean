import Nachos.MipsReference
import Nachos.PreciseTraps

namespace Nachos
open TwosComplement Buffers ByteMerge Machine

theorem Reg.index_lt (r : Reg) : r.index < pcReg := by
  cases r with
  | gpr r => exact r.isLt.trans (by decide)
  | hi => decide
  | lo => decide

theorem Reg.index_injective : Function.Injective Reg.index := by
  intro r s h
  cases r <;> cases s <;> simp only [Reg.index] at h
  case gpr.gpr r s => exact congrArg Reg.gpr (Fin.ext h)
  case hi.hi | lo.lo => rfl
  case gpr.hi r | gpr.lo r =>
    exact absurd h (r.isLt.trans_le (by decide)).ne
  case hi.gpr r | lo.gpr r =>
    exact absurd h.symm (r.isLt.trans_le (by decide)).ne
  all_goals exact absurd h (by decide)

namespace Cpu
variable (c : Cpu)

theorem set_regs {r : Reg} (hr : r.index ≠ 0) (r' : Reg) (v : BitVec 32) :
    (c.set r' v).regs r = if r = r' then v else c.regs r := by
  unfold set
  split_ifs with h₀ heq heq
  · exact absurd (heq ▸ h₀) hr
  · rfl
  · rw [heq]
    exact Function.update_self ..
  · exact Function.update_of_ne heq _ _

theorem set_regs_zero {r : Reg} (hr : r.index = 0) (r' : Reg) (v : BitVec 32) :
    (c.set r' v).regs r = c.regs r := by
  unfold set
  split_ifs with h₀
  · rfl
  · exact Function.update_of_ne (ne_of_apply_ne Reg.index fun h => h₀ (h ▸ hr)) _ _

@[simp] theorem set_pc (r : Reg) (v : BitVec 32) : (c.set r v).pc = c.pc := by
  unfold set
  split_ifs <;> rfl

@[simp] theorem set_npc (r : Reg) (v : BitVec 32) : (c.set r v).npc = c.npc := by
  unfold set
  split_ifs <;> rfl

@[simp] theorem set_mem (r : Reg) (v : BitVec 32) : (c.set r v).mem = c.mem := by
  unfold set
  split_ifs <;> rfl

end Cpu

/-- The machine `m`, on which nothing is pending, is in the state `c`; register 0 of the machine
may hold anything, as it does within an instruction. -/
structure Tracks (n : ℕ) (m : Machine) (c : Cpu) : Prop where
  regs : ∀ r : Reg, r.index ≠ 0 → m.registers r.index = (c.regs r).toInt
  zero : ∀ r : Reg, r.index = 0 → c.regs r = 0
  load : m.registers loadReg = 0
  loadValue : m.registers loadValueReg = 0
  pc : m.registers pcReg = c.pc.toInt
  npc : m.registers nextPCReg = c.npc.toInt
  holds : m.Holds n c.mem

/-- The machine and the processor at the start of an instruction. -/
structure Simulates (n : ℕ) (m : Machine) (c : Cpu) : Prop extends Tracks n m c where
  regZero : m.registers 0 = 0

section Tracks
variable {n : ℕ} {m m' : Machine} {c : Cpu}

theorem Tracks.of_registers (h : Tracks n m c) (hregs : m'.registers = m.registers) {mem : Bytes}
    (hholds : m'.Holds n mem) : Tracks n m' { c with mem } := by
  refine ⟨?_, h.zero, ?_, ?_, ?_, ?_, hholds⟩
  · rw [hregs]
    exact h.regs
  · rw [hregs, h.load]
  · rw [hregs, h.loadValue]
  · rw [hregs, h.pc]
  · rw [hregs, h.npc]

theorem Tracks.setRegister (h : Tracks n m c) (r : Reg) (v : BitVec 32) :
    Tracks n (m.setRegister r.index v.toInt) (c.set r v) := by
  have hkeep : ∀ k, pcReg ≤ k → (m.setRegister r.index v.toInt).registers k = m.registers k :=
    fun k hk => Function.update_of_ne (r.index_lt.trans_le hk).ne' _ _
  refine ⟨fun s hs => ?_, fun s hs => ?_, ?_, ?_, ?_, ?_, ?_⟩
  · rw [c.set_regs hs, apply_ite BitVec.toInt, ← h.regs s hs]
    exact (Function.update_apply ..).trans (if_congr Reg.index_injective.eq_iff rfl rfl)
  · rw [c.set_regs_zero hs, h.zero s hs]
  · rw [hkeep _ (by decide), h.load]
  · rw [hkeep _ (by decide), h.loadValue]
  · rw [hkeep _ le_rfl, h.pc, c.set_pc]
  · rw [hkeep _ (by decide), h.npc, c.set_npc]
  · rw [c.set_mem]
    exact h.holds.of_image rfl

theorem Tracks.setRegisters (h : Tracks n m c) (writes : List (Reg × BitVec 32)) :
    Tracks n (m.setRegisters (writes.map fun w => (w.1.index, w.2.toInt))) (c.setAll writes) := by
  induction writes generalizing m c with
  | nil => exact h
  | cons w ws ih => exact ih (h.setRegister w.1 w.2)

theorem Tracks.advance (h : Tracks n m c) (hzero : m.registers 0 = 0) (target : BitVec 32) :
    Simulates n (m.advance target.toInt) (c.goTo target) := by
  have hrest : ∀ k, k ≠ nextPCReg → k ≠ pcReg → k ≠ prevPCReg →
      (m.advance target.toInt).registers k = m.registers k := by
    intro k h₁ h₂ h₃
    rw [advance_registers, if_neg h₁, if_neg h₂, if_neg h₃]
  refine ⟨⟨fun r hr => ?_, h.zero, ?_, ?_, ?_, ?_, h.holds.of_image rfl⟩, ?_⟩
  · have hlt := r.index_lt
    rw [hrest _ (hlt.trans (by decide)).ne hlt.ne (hlt.trans (by decide)).ne]
    exact h.regs r hr
  · rw [hrest _ (by decide) (by decide) (by decide), h.load]
  · rw [hrest _ (by decide) (by decide) (by decide), h.loadValue]
  · rw [advance_registers, if_neg (by decide), if_pos rfl]
    exact h.npc
  · rw [advance_registers, if_pos rfl]
    rfl
  · rw [hrest _ (by decide) (by decide) (by decide), hzero]

theorem Tracks.applyNow (h : Tracks n m c) (rt : Fin numGPRegs) (v target : BitVec 32) :
    Simulates n (m.applyNow ⟨target.toInt, (rt : ℕ), v.toInt⟩)
      ((c.set (.gpr rt) v).goTo target) := by
  have hset := (h.setRegister (.gpr rt) v).setRegister (.gpr ⟨0, by decide⟩) 0
  have hsame : (c.set (.gpr rt) v).set (.gpr ⟨0, by decide⟩) 0 = c.set (.gpr rt) v := if_pos rfl
  rw [hsame] at hset
  exact hset.advance rfl target

theorem inSpace_toInt {addr : BitVec 32} {w : Width} :
    InSpace n addr.toInt w ↔ Cpu.Accessible n addr w := by
  rw [InSpace, Cpu.Accessible, Instruction.unsigned_toInt]

theorem isInt_load {mem : Memory} {pa size v : Int} (h : Machine.load mem pa size = some v) :
    IsInt v := by
  unfold Machine.load at h
  dsimp only at h
  split_ifs at h with h₁ h₂ h₃
  · obtain rfl := Option.some.inj h
    have hlow := (mem pa).toBitVec.le_toInt
    have hhigh := (mem pa).toBitVec.toInt_lt
    unfold IsInt intMin intMax
    omega
  · obtain rfl := Option.some.inj h
    have hb₀ := (mem (pa + (0 : ℕ))).toNat_lt
    have hb₁ := (mem (pa + (1 : ℕ))).toNat_lt
    unfold IsInt intMin intMax
    omega
  · obtain rfl := Option.some.inj h
    exact wrap_mem_range _

theorem toNat_read (c : Cpu) (addr : BitVec 32) (w : Width) :
    (c.read addr w).toNat = littleEndian (shift c.mem addr.toNat) w.size := by
  have hbyte : ∀ a, (shift c.mem addr.toNat a).toNat < 256 := fun a => UInt8.toNat_lt _
  rw [Cpu.read, BitVec.toNat_ofNat]
  apply Nat.mod_eq_of_lt
  have h₀ := hbyte 0
  have h₁ := hbyte 1
  have h₂ := hbyte 2
  have h₃ := hbyte 3
  cases w <;>
    simp only [littleEndian, Width.size, Finset.sum_range_succ, Finset.sum_range_zero] <;> omega

section Accesses
variable (h : Tracks n m c) {addr : BitVec 32} {w : Width}
include h

theorem Tracks.readMem (hin : Cpu.Accessible n addr w) :
    ∃ v m', m.readMem addr.toInt w.size = .done v m' ∧ Tracks n m' c ∧ IsInt v ∧
      unsigned v % 256 ^ w.size = (c.read addr w).toNat := by
  have hspace : InSpace m.spaceSize addr.toInt w := by
    rw [h.holds.size]
    exact inSpace_toInt.mpr hin
  obtain ⟨v, m', hr, himage, hload, hv⟩ := h.holds.paged.readMem_inSpace hspace
  refine ⟨v, m', hr, h.of_registers (readMem_registers hr) (h.holds.of_image himage),
    isInt_load hload, hv.trans ?_⟩
  rw [toNat_read, Instruction.unsigned_toInt]
  apply Finset.sum_congr rfl
  intro j hj
  have hlt := hspace.add_lt (Finset.mem_range.mp hj)
  rw [Instruction.unsigned_toInt] at hlt
  rw [shift, shift, h.holds.bytes _ (h.holds.size ▸ hlt)]

theorem Tracks.readMem_outside (hout : ¬Cpu.Accessible n addr w) :
    m.readMem addr.toInt w.size = .raised .addressErrorException (m.raiseException addr.toInt) := by
  apply h.holds.paged.readMem_outside
  rw [h.holds.size]
  exact inSpace_toInt.not.mpr hout

theorem Tracks.writeMem (hin : Cpu.Accessible n addr w) (value : BitVec 32) :
    ∃ m', m.writeMem addr.toInt w.size value.toInt = .done () m' ∧
      Tracks n m' (c.write addr w value) := by
  have hspace : InSpace m.spaceSize addr.toInt w := by
    rw [h.holds.size]
    exact inSpace_toInt.mpr hin
  obtain ⟨m', hw, hlayout, hbytes⟩ := h.holds.paged.writeMem_inSpace hspace value.toInt
  refine ⟨m', hw, h.of_registers (writeMem_registers hw) ⟨h.holds.paged.of_layout hlayout,
    (spaceSize_of_layout hlayout).trans h.holds.size, fun a ha => ?_⟩⟩
  rw [hbytes a (h.holds.size ▸ ha), Instruction.unsigned_toInt]
  simp only [bcopy, Machine.byteOf_eq, word_toInt, h.holds.bytes a ha]

theorem Tracks.writeMem_outside (hout : ¬Cpu.Accessible n addr w) (value : BitVec 32) :
    m.writeMem addr.toInt w.size value.toInt =
      .raised .addressErrorException (m.raiseException addr.toInt) := by
  apply h.holds.paged.writeMem_outside
  rw [h.holds.size]
  exact inSpace_toInt.not.mpr hout

end Accesses

theorem Tracks.raiseException (h : Tracks n m c) (badVAddr : Int) :
    Simulates n (m.raiseException badVAddr) c := by
  have hlt : m.registers loadReg < numGPRegs := by rw [h.load]; decide
  have htrapped := raiseException_trapped hlt badVAddr
  refine ⟨⟨fun r hr => ?_, h.zero, htrapped.load, htrapped.loadValue, htrapped.pc.trans h.pc,
    htrapped.nextPC.trans h.npc, h.holds.of_image (image_raiseException m _)⟩, ?_⟩
  · have hpc := r.index_lt
    rw [raiseException_registers, h.load, Int.toNat_zero, if_neg hr,
      if_neg (hpc.trans (by decide)).ne, if_neg (hpc.trans (by decide)).ne, if_neg hr,
      if_neg (hpc.trans (by decide)).ne]
    exact h.regs r hr
  · rw [raiseException_registers, if_pos rfl]

end Tracks

section Step
variable {n : ℕ} {m : Machine} {c : Cpu}

/-- A trap leaves the state to the kernel as it was; where the architecture gives no result,
anything may happen. -/
def Meets (n : ℕ) (c : Cpu) (o : Outcome Unit) : CpuStep → Prop
  | .next c' => ∃ m', o = .done () m' ∧ Simulates n m' c'
  | .trap e => ∃ m', o = .raised e m' ∧ Simulates n m' c
  | .unpredictable => True

theorem Simulates.registers (h : Simulates n m c) (r : Reg) :
    m.registers r.index = (c.regs r).toInt := by
  by_cases hr : r.index = 0
  · rw [hr, h.regZero, h.zero r hr]
    rfl
  · exact h.regs r hr

theorem Simulates.operands (h : Simulates n m c) (i : Instruction) :
    i.operands m.registers = c.operands i := by
  have hrs := h.registers (.gpr i.rs)
  have hrt := h.registers (.gpr i.rt)
  have hhi := h.registers .hi
  have hlo := h.registers .lo
  simp only [Reg.index] at hrs hrt hhi hlo
  -- nothing is on its way to `rt`
  have hold : (if m.registers loadReg = (i.rt : ℕ) then m.registers loadValueReg
      else m.registers i.rt) = (c.regs (.gpr i.rt)).toInt := by
    split_ifs with hpending
    · rw [h.load] at hpending
      rw [h.loadValue, h.zero (.gpr i.rt) (by simpa [Reg.index] using hpending.symm)]
      rfl
    · exact hrt
  rw [Instruction.operands, Cpu.operands, hrs, hrt, hhi, hlo, h.npc]
  rw [hrt] at hold
  rw [hold]

theorem Tracks.goOn (h : Tracks n m c) (target : BitVec 32) :
    Simulates n (m.applyNow ⟨target.toInt, 0, 0⟩) (c.goTo target) := by
  have hset : c.set (.gpr ⟨0, by decide⟩) 0 = c := if_pos rfl
  have hnow := h.applyNow ⟨0, by decide⟩ 0 target
  rw [hset] at hnow
  exact hnow

/-- The end of `OneInstruction` on the machine that loads at once. -/
theorem Simulates.perform (h : Simulates n m c) {i : Instruction} {a : Action}
    (hmatch : Matches i (i.effect (c.operands i)) a) :
    Meets n c ((m.execute i).bind fun next m₂ => .done () (m₂.applyNow next))
      (c.perform n a) := by
  have hnext : wrap (m.registers nextPCReg + 4) = (c.npc + 4).toInt := by
    rw [h.npc, wrap_toInt_add_four]
  rw [execute, h.operands, hnext]
  -- the switch and the architecture agree on the effect; what is left is the access to memory
  generalize i.effect (c.operands i) = effect at hmatch
  cases hmatch with
  | go writes target =>
    exact ⟨_, rfl, (h.setRegisters writes).goOn target⟩
  | @load addr w extend value hextend =>
    by_cases hin : Cpu.Accessible n addr w
    · obtain ⟨v, m', hr, hm', hint, hv⟩ := h.readMem hin
      simp only [Cpu.perform, if_pos hin, hr]
      refine ⟨_, rfl, ?_⟩
      rw [hextend v _ hint hv]
      exact hm'.applyNow i.rt _ _
    · simp only [Cpu.perform, if_neg hin, h.readMem_outside hin]
      exact ⟨_, rfl, h.raiseException _⟩
  | @misaligned addr w value hal =>
    have hout : ¬Cpu.Accessible n addr w := fun hin => hal hin.1
    simp only [Cpu.perform, if_neg hout]
    exact ⟨_, rfl, h.raiseException _⟩
  | store addr w value =>
    by_cases hin : Cpu.Accessible n addr w
    · obtain ⟨m', hw, hm'⟩ := h.writeMem hin value
      simp only [Cpu.perform, if_pos hin, hw]
      exact ⟨_, rfl, hm'.goOn _⟩
    · simp only [Cpu.perform, if_neg hin, h.writeMem_outside hin]
      exact ⟨_, rfl, h.raiseException _⟩
  | @merge addr insert value hinsert =>
    by_cases hin : Cpu.Accessible n addr .word
    · obtain ⟨v, m', hr, hm', hint, hv⟩ := h.readMem hin
      obtain ⟨m'', hw, hm''⟩ := hm'.writeMem hin (value (c.read addr .word))
      have hread : m.readMem addr.toInt 4 = .done v m' := hr
      have hwrite : m'.writeMem addr.toInt 4 (insert v) = .done () m'' := by
        rw [eq_toInt_of_read hint hv, hinsert]
        exact hw
      simp only [Cpu.perform, if_pos hin, hread, Outcome.bind, hwrite]
      exact ⟨_, rfl, hm''.goOn _⟩
    · have hread : m.readMem addr.toInt 4 =
          .raised .addressErrorException (m.raiseException addr.toInt) := h.readMem_outside hin
      simp only [Cpu.perform, if_neg hin, hread]
      exact ⟨_, rfl, h.raiseException _⟩
  | trap e badVAddr => exact ⟨_, rfl, h.raiseException _⟩
  | unpredictable e => trivial

theorem Simulates.fetch (h : Simulates n m c) (hin : Cpu.Accessible n c.pc .word) :
    ∃ m₁, m.fetch = .done c.instruction m₁ ∧ Simulates n m₁ c := by
  obtain ⟨v, m₁, hr, hm₁, hint, hv⟩ := h.readMem hin
  refine ⟨m₁, ?_, hm₁, (congrFun (readMem_registers hr) 0).trans h.regZero⟩
  have hread : m.readMem (m.registers pcReg) 4 = .done v m₁ := by
    rw [h.pc]
    exact hr
  have hword : v = c.fetched.toInt := eq_toInt_of_read hint hv
  rw [Machine.fetch, hread, Cpu.instruction, ← Instruction.decode_toInt, ← hword]
  rfl

theorem Simulates.fetch_outside (h : Simulates n m c) (hout : ¬Cpu.Accessible n c.pc .word) :
    m.fetch = .raised .addressErrorException (m.raiseException c.pc.toInt) := by
  have hread : m.readMem (m.registers pcReg) 4 =
      .raised .addressErrorException (m.raiseException c.pc.toInt) := by
    rw [h.pc]
    exact h.readMem_outside hout
  rw [Machine.fetch, hread]
  rfl

theorem immediateInstruction_of_fetch {i : Instruction} {m₁ : Machine}
    (h : m.fetch = .done i m₁) : m.immediateInstruction =
      (m₁.execute i).bind fun next m₂ => .done () (m₂.applyNow next) := by
  rw [immediateInstruction, h]
  rfl

/-- An instruction does what the architecture says, unless it departs from it. -/
theorem Simulates.step (h : Simulates n m c)
    (hd : Cpu.Accessible n c.pc .word → ¬c.Departs) :
    Meets n c m.immediateInstruction (c.step n) := by
  by_cases hin : Cpu.Accessible n c.pc .word
  · obtain ⟨m₁, hfetch, hm₁⟩ := h.fetch hin
    have hstep : c.step n = c.perform n (c.action c.instruction c.fetched) := if_pos hin
    rw [hstep, immediateInstruction_of_fetch hfetch]
    exact hm₁.perform
      (c.matches_action c.fetched (Instruction.decode_toInt c.fetched).symm (hd hin))
  · rw [Cpu.step, if_neg hin, immediateInstruction, h.fetch_outside hin]
    exact ⟨_, rfl, h.raiseException _⟩

/-- Where the simulator departs from the architecture, neither traps. -/
theorem not_departs_of_trap {e : ExceptionType} (h : c.step n = .trap e)
    (hin : Cpu.Accessible n c.pc .word) : ¬c.Departs := by
  intro hd
  rw [Cpu.step, if_pos hin] at h
  obtain ⟨writes, target, hgo⟩ := Cpu.DepartsOn.action _ _ hd
  rw [hgo] at h
  cases h

end Step

section Runs
variable {n : ℕ} {m : Machine} {c c' : Cpu}

theorem Cpu.Runs.cons_inv {i : Instruction} {is : List Instruction} (h : c.Runs n (i :: is) c') :
    c.instruction = i ∧ ¬c.Departs ∧ ∃ c₁, c.step n = .next c₁ ∧ c₁.Runs n is c' := by
  generalize hl : i :: is = l at h
  cases h with
  | nil => cases hl
  | cons hd hstep hrest =>
    obtain ⟨rfl, rfl⟩ := List.cons.inj hl
    exact ⟨rfl, hd, _, hstep, hrest⟩

theorem outcome_map_done {f : Machine → Machine} {o : Outcome Unit} {u : Unit} {m' : Machine}
    (h : o.map f = .done u m') : ∃ m, o = .done () m ∧ f m = m' := by
  cases o <;> cases h
  exact ⟨_, rfl, rfl⟩

theorem outcome_map_raised {f : Machine → Machine} {o : Outcome Unit} {e : ExceptionType}
    {m' : Machine} (h : o.map f = .raised e m') : ∃ m, o = .raised e m ∧ f m = m' := by
  cases o <;> cases h
  exact ⟨_, rfl, rfl⟩

theorem accessible_of_next {c₁ : Cpu} (h : c.step n = .next c₁) :
    Cpu.Accessible n c.pc .word := by
  by_contra hout
  rw [Cpu.step, if_neg hout] at h
  cases h

theorem Simulates.instructionAt (hm : SoundRegisters m.registers) (h : Simulates n m.flush c)
    (hin : Cpu.Accessible n c.pc .word) : m.instructionAt = some c.instruction := by
  obtain ⟨m₁, hfetch, -⟩ := h.fetch hin
  rw [← instructionAt_flush hm]
  exact (fetch_done hfetch).2

section Flush
variable (hm : SoundRegisters m.registers) (h : Simulates n m.flush c)
  (hread : m.registers loadReg ≠ 0 → (m.registers loadReg).toNat ∉ c.instruction.reads)
  (hwrite : m.registers loadReg ≠ 0 → (m.registers loadReg).toNat ∉ c.instruction.writes)
include hm h hread hwrite

theorem Simulates.immediateInstruction_flush :
    m.flush.immediateInstruction = m.oneInstruction.map Machine.flush := by
  by_cases hin : Cpu.Accessible n c.pc .word
  · exact oneInstruction_flush hm (h.instructionAt hm hin) hread hwrite
  · have hraised := h.fetch_outside hin
    rw [fetch_flush hm] at hraised
    rw [immediateInstruction, fetch_flush hm]
    refine Outcome.map_bind fun i m₁ hfetch => ?_
    rw [hfetch] at hraised
    cases hraised

/-- The load that is pending before the instruction is done by the time of the trap. -/
theorem Simulates.oneInstruction_trap {e : ExceptionType} (htrap : c.step n = .trap e) :
    ∃ m', m.oneInstruction = .raised e m' ∧ Simulates n m' c := by
  have hmeets := h.step (not_departs_of_trap htrap)
  rw [htrap, h.immediateInstruction_flush hm hread hwrite] at hmeets
  obtain ⟨m₁, hraised, hm₁⟩ := hmeets
  obtain ⟨m', ho, hm'⟩ := outcome_map_raised hraised
  obtain ⟨m₂, bad, -, rfl⟩ := oneInstruction_raised ho
  refine ⟨_, ho, ?_⟩
  have hdone : (m₂.raiseException bad).flush = m₂.raiseException bad := flush_flush _
  rw [← hdone, hm']
  exact hm₁

theorem Simulates.oneInstruction_next (hd : ¬c.Departs) {c₁ : Cpu} (hstep : c.step n = .next c₁) :
    ∃ m', m.oneInstruction = .done () m' ∧ Simulates n m'.flush c₁ := by
  have hmeets := h.step fun _ => hd
  rw [hstep, h.immediateInstruction_flush hm hread hwrite] at hmeets
  obtain ⟨m₁, hdone, hm₁⟩ := hmeets
  obtain ⟨m', ho, rfl⟩ := outcome_map_done hdone
  exact ⟨m', ho, hm₁⟩

end Flush

/-- The run of a program that leaves the delay slots of its loads free.  The last hypotheses
hold again at its end, for the instruction that comes next. -/
theorem Simulates.run {es : List Event} (hm : SoundRegisters m.registers)
    (h : Simulates n m.flush c) (hrun : c.Runs n (instructions es) c')
    (hread : SlotsFree Instruction.reads (m.registers loadReg)
      (instructions es ++ [c'.instruction]))
    (hwrite : SlotsFree Instruction.writes (m.registers loadReg)
      (instructions es ++ [c'.instruction])) :
    ∃ m', m.run es = some m' ∧ SoundRegisters m'.registers ∧ Simulates n m'.flush c' ∧
      SlotsFree Instruction.reads (m'.registers loadReg) [c'.instruction] ∧
      SlotsFree Instruction.writes (m'.registers loadReg) [c'.instruction] := by
  -- on the events; an interrupt only does the pending load, which the architecture has done already
  induction es generalizing m c with
  | nil =>
    cases hrun
    exact ⟨m, rfl, hm, h, hread, hwrite⟩
  | cons event es ih =>
    cases event with
    | interrupt =>
      have hnone : m.flush.registers loadReg = 0 := flush_registers ..
      apply ih (flush_sound hm)
      · rw [flush_flush]
        exact h
      · exact hrun
      · rw [hnone]
        exact hread.flush
      · rw [hnone]
        exact hwrite.flush
    | instruction i =>
      obtain ⟨hi, hd, c₁, hstep, hrest⟩ := Cpu.Runs.cons_inv (i := i) hrun
      have hin := accessible_of_next hstep
      have hat := h.instructionAt hm hin
      rw [hi] at hat
      obtain ⟨m₁, hdone, hm₁⟩ :=
        h.oneInstruction_next hm (hi ▸ hread.1) (hi ▸ hwrite.1) hd hstep
      obtain ⟨j, hj, hseq⟩ := oneInstruction_sequenced hm hdone
      obtain rfl : i = j := Option.some.inj (hat.symm.trans hj)
      have hmachine : m.oneInstruction.machine = some m₁ := by rw [hdone]; rfl
      have hsound := (oneInstruction_inArray hm hmachine).sound
      obtain ⟨m', hrun', hm'⟩ := ih hsound hm₁ hrest (hseq.load ▸ hread.2) (hseq.load ▸ hwrite.2)
      refine ⟨m', ?_, hm'⟩
      rw [Machine.run, if_pos hat, hdone]
      exact hrun'

/-- A program that leaves the delay slots of its loads free runs as on the architecture, with
interrupts taken anywhere, and a trap at its end gives the kernel the registers and the memory
of the architecture. -/
theorem program_runs_as_architecture {es : List Event} (hm : SoundRegisters m.registers)
    (h : Simulates n m.flush c) (hrun : c.Runs n (instructions es) c')
    (hread : SlotsFree Instruction.reads (m.registers loadReg)
      (instructions es ++ [c'.instruction]))
    (hwrite : SlotsFree Instruction.writes (m.registers loadReg)
      (instructions es ++ [c'.instruction])) :
    ∃ m', m.run es = some m' ∧ Simulates n m'.flush c' ∧
      ∀ e, c'.step n = .trap e →
        ∃ m'', m'.oneInstruction = .raised e m'' ∧ Simulates n m'' c' := by
  obtain ⟨m', hrun', hm', hsim, hread', hwrite'⟩ := h.run hm hrun hread hwrite
  exact ⟨m', hrun', hsim, fun e he => hsim.oneInstruction_trap hm' hread'.1 hwrite'.1 he⟩

end Runs

def loadThenCall : Machine := slotMachine [0x0c, 0x00, 0x00, 0x00]

def beforeLoad : Cpu where
  regs := fun _ => 0
  pc := 0
  npc := 4
  mem := loadThenCall.virtualByte

def afterLoad : Cpu := (beforeLoad.set (.gpr ⟨1, by decide⟩) 7).goTo 8

theorem simulates_beforeLoad : Simulates 128 loadThenCall.flush beforeLoad := by
  have hpaged : loadThenCall.Paged := by
    refine ⟨rfl, ⟨_, rfl, rfl, by decide⟩, ?_, ?_⟩
    · rw [show loadThenCall.frames = [0] from rfl]
      decide
    · rw [show loadThenCall.frames = [0] from rfl]
      decide
  have hholds : loadThenCall.Holds 128 beforeLoad.mem := ⟨hpaged, rfl, fun _ _ => rfl⟩
  have hregs : ∀ k, k ≠ nextPCReg → loadThenCall.flush.registers k = 0 := by
    intro k hk
    have hzero : ∀ j, j ≠ nextPCReg → loadThenCall.registers j = 0 :=
      fun j hj => Function.update_of_ne hj 4 fun _ => (0 : Int)
    rw [flush_registers, hzero k hk, hzero loadValueReg (by decide)]
    split_ifs <;> rfl
  refine ⟨⟨fun r _ => ?_, fun _ _ => rfl, ?_, ?_, ?_, rfl, hholds.of_image rfl⟩, ?_⟩
  · exact hregs _ (r.index_lt.trans (by decide)).ne
  · exact hregs _ (by decide)
  · exact hregs _ (by decide)
  · exact hregs _ (by decide)
  · exact hregs _ (by decide)

theorem beforeLoad_runs : beforeLoad.Runs 128 [loadWord] afterLoad := by
  have hload : ¬beforeLoad.Departs := by
    rintro (⟨-, ⟨h, -⟩ | ⟨h, -⟩⟩ | ⟨h | h, -⟩) <;> cases h
  exact .cons hload rfl (.nil _)

/-- An interrupt comes while the load is pending; the system call finds the register. -/
theorem program_runs_as_architecture_call : ∃ m' m'',
    loadThenCall.run [.instruction loadWord, .interrupt] = some m' ∧
    m'.oneInstruction = .raised .syscallException m'' ∧ m''.registers 1 = 7 := by
  obtain ⟨m', hrun, -, htrap⟩ := @program_runs_as_architecture 128 loadThenCall beforeLoad
    afterLoad [.instruction loadWord, .interrupt] (slotMachine_sound _) simulates_beforeLoad
    beforeLoad_runs ⟨by decide, by decide, trivial⟩ ⟨by decide, by decide, trivial⟩
  obtain ⟨m'', hraised, hm''⟩ := htrap .syscallException rfl
  have hone := hm''.registers (.gpr ⟨1, by decide⟩)
  exact ⟨m', m'', hrun, hraised, hone⟩

end Nachos
