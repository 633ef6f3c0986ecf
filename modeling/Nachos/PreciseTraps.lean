import Nachos.BadPointer
import Nachos.RegisterFile

namespace Nachos
namespace Machine

variable {m m' : Machine} {e : ExceptionType}

/-- What `ExceptionHandler` finds after a trap from `m`: the pending load is done, and the
instruction can be started again. -/
structure Precise (m m' : Machine) : Prop where
  memory : m'.mainMemory = m.mainMemory
  pc : m'.registers pcReg = m.registers pcReg
  nextPC : m'.registers nextPCReg = m.registers nextPCReg
  load : m'.registers loadReg = 0
  loadValue : m'.registers loadValueReg = 0
  pending : m.registers loadReg ≠ 0 →
    m'.registers (m.registers loadReg).toNat = m.registers loadValueReg
  others : ∀ r, r ≠ loadReg → r ≠ loadValueReg → r ≠ badVAddrReg →
    (m.registers loadReg ≠ 0 → r ≠ (m.registers loadReg).toNat) →
    m'.registers r = m.registers r

theorem readMem_mainMemory {addr size v : Int} (h : m.readMem addr size = .done v m') :
    m'.mainMemory = m.mainMemory := congrArg Prod.snd (readMem_image h)

theorem execute_raised_mainMemory {i : Instruction} (h : m.execute i = .raised e m') :
    m'.mainMemory = m.mainMemory := by
  unfold execute at h
  split at h
  · cases h
  · rcases Outcome.bind_raised h with hread | ⟨v, m₁, -, h⟩
    · rw [readMem_raised hread]
      rfl
    · cases h
  · rcases Outcome.bind_raised h with hwrite | ⟨v, m₁, -, h⟩
    · rw [writeMem_raised hwrite]
      rfl
    · cases h
  · rcases Outcome.bind_raised h with hread | ⟨v, m₁, hread, h⟩
    · rw [readMem_raised hread]
      rfl
    · rcases Outcome.bind_raised h with hwrite | ⟨w, m₂, -, h⟩
      · -- `SWL` and `SWR` have only read so far
        rw [writeMem_raised hwrite, ← readMem_mainMemory hread]
        rfl
      · cases h
  · cases h
    rfl
  · cases h

theorem oneInstruction_raised_mainMemory (h : m.oneInstruction = .raised e m') :
    m'.mainMemory = m.mainMemory := by
  rcases Outcome.bind_raised h with hfetch | ⟨i, m₁, hfetch, h⟩
  · rcases Outcome.bind_raised hfetch with hread | ⟨raw, m₁, -, h⟩
    · rw [readMem_raised hread]
      rfl
    · cases h
  · obtain ⟨raw, m₂, hread, hm₂⟩ := Outcome.bind_done hfetch
    cases hm₂
    rcases Outcome.bind_raised h with hexec | ⟨next, m₂, -, h⟩
    · exact (execute_raised_mainMemory hexec).trans (readMem_mainMemory hread)
    · cases h

theorem raiseException_registers (m : Machine) (badVAddr : Int) (r : ℕ) :
    (m.raiseException badVAddr).registers r =
      if r = 0 then 0
      else if r = loadValueReg then 0
      else if r = loadReg then 0
      else if r = (m.registers loadReg).toNat then m.registers loadValueReg
      else if r = badVAddrReg then badVAddr
      else m.registers r := by
  rw [raiseException, delayedLoad_registers]
  simp only [setRegister, Function.update_apply]
  rfl

/-- Every exception of every instruction is precise, through a page table or a TLB. -/
theorem traps_precise (hm : SoundRegisters m.registers) (h : m.oneInstruction = .raised e m') :
    Precise m m' := by
  have hmem := oneInstruction_raised_mainMemory h
  obtain ⟨m₁, badVAddr, hregs, rfl⟩ := oneInstruction_raised h
  have htrapped := raiseException_trapped (m := m₁) (hregs ▸ hm.load_lt) badVAddr
  have hnonneg := hm.load_nonneg
  have hlt := hm.load_lt
  refine ⟨hmem, ?_, ?_, htrapped.load, htrapped.loadValue, fun hp => ?_, fun r h₁ h₂ h₃ h₄ => ?_⟩
  · rw [htrapped.pc, hregs]
  · rw [htrapped.nextPC, hregs]
  · -- the pending load goes to a general-purpose register other than 0
    have hp' : (m.registers loadReg).toNat < 32 := by
      unfold numGPRegs at hlt
      omega
    rw [raiseException_registers, hregs, if_neg (by omega),
      if_neg (lt_trans hp' (by decide)).ne, if_neg (lt_trans hp' (by decide)).ne, if_pos rfl]
  · rw [raiseException_registers, hregs, if_neg h₂, if_neg h₁, if_neg h₃]
    split_ifs with hzero hload
    · rw [hzero, hm.zero]
    · exact absurd hload (h₄ (by omega))
    · rfl

def unalignedStore : Machine where
  mainMemory a := ([0x02, 0x00, 0x02, 0xac] : List UInt8).getD a.toNat 0
  registers := Function.update (Function.update (Function.update (fun _ => 0) nextPCReg 4)
    loadReg 2) loadValueReg 7
  tlb := none
  pageTable := some [⟨0, 0, true, false, false, false⟩]
  pageTableSize := 1

theorem traps_precise_unalignedStore :
    ∃ m', unalignedStore.oneInstruction = .raised .addressErrorException m' ∧
      m'.mainMemory = unalignedStore.mainMemory ∧ m'.registers pcReg = 0 ∧
      m'.registers nextPCReg = 4 ∧ m'.registers 2 = 7 := by
  have hsound : SoundRegisters unalignedStore.registers :=
    ⟨rfl, (by decide : (0 : Int) ≤ 2), (by decide : (2 : Int) < numGPRegs)⟩
  obtain ⟨m', ho⟩ := Outcome.raised_of_seen
    (show unalignedStore.oneInstruction.seen = some (.inl .addressErrorException) by
      decide +kernel)
  have hprecise := traps_precise hsound ho
  have hpending := hprecise.pending (by decide)
  exact ⟨m', ho, hprecise.memory, hprecise.pc, hprecise.nextPC, hpending⟩

end Machine
end Nachos
