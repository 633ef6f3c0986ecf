import Nachos.ContextSwitch
import Nachos.ExceptionHandler
import Nachos.Mips

namespace Nachos
open TwosComplement

/-- What the simulator needs of its registers. -/
structure SoundRegisters (r : ℕ → Int) : Prop where
  zero : r 0 = 0
  load_nonneg : 0 ≤ r loadReg
  load_lt : r loadReg < numGPRegs

namespace Machine
variable {m m' : Machine} {i : Instruction}

theorem delayedLoad_registers (m : Machine) (nextReg nextValue : Int) (r : ℕ) :
    (m.delayedLoad nextReg nextValue).registers r =
      if r = 0 then 0
      else if r = loadValueReg then nextValue
      else if r = loadReg then nextReg
      else if r = (m.registers loadReg).toNat then m.registers loadValueReg
      else m.registers r := by
  simp only [delayedLoad, setRegister, Function.update_apply]

theorem advance_registers (m : Machine) (pcAfter : Int) (r : ℕ) :
    (m.advance pcAfter).registers r =
      if r = nextPCReg then pcAfter
      else if r = pcReg then m.registers nextPCReg
      else if r = prevPCReg then m.registers pcReg
      else m.registers r := by
  simp only [advance, setRegister, Function.update_apply]

theorem setRegisters_registers (m : Machine) {writes : List (ℕ × Int)} {r : ℕ}
    (h : r ∉ writes.map Prod.fst) : (m.setRegisters writes).registers r = m.registers r := by
  induction writes generalizing m with
  | nil => rfl
  | cons w ws ih =>
    rw [List.map_cons, List.mem_cons, not_or] at h
    exact (ih (m.setRegister w.1 w.2) h.2).trans (Function.update_of_ne h.1 _ _)

theorem execute_done {next : Next} (h : m.execute i = .done next m') :
    (∀ r, r ∉ i.writes → m'.registers r = m.registers r) ∧ next.nextLoadReg = i.target ∧
    (i.isLoad = false → next.nextLoadValue = 0) ∧
    (i.transfers = false → next.pcAfter = wrap (m.registers nextPCReg + 4)) := by
  have hfits := i.effect_fits (i.operands m.registers)
  unfold execute at h
  generalize i.effect (i.operands m.registers) = effect at h hfits
  -- the shape of the effect tells which registers the switch has written
  cases hfits with
  | goOn hload hwrites hpc =>
    cases h
    refine ⟨fun r hr => m.setRegisters_registers (hwrites ▸ hr), ?_, fun _ => rfl, hpc⟩
    rw [Instruction.target, hload]
    rfl
  | load hload =>
    obtain ⟨v, m₁, hread, h⟩ := Outcome.bind_done h
    cases h
    refine ⟨fun r _ => by rw [readMem_registers hread], ?_, ?_, fun _ => rfl⟩
    · rw [Instruction.target, if_pos hload]
    · intro hn
      rw [hload] at hn
      cases hn
  | store hload =>
    obtain ⟨v, m₁, hwrite, h⟩ := Outcome.bind_done h
    cases h
    refine ⟨fun r _ => by rw [writeMem_registers hwrite], ?_, fun _ => rfl, fun _ => rfl⟩
    rw [Instruction.target, hload]
    rfl
  | merge hload =>
    obtain ⟨v, m₁, hread, h⟩ := Outcome.bind_done h
    obtain ⟨_, m₂, hwrite, h⟩ := Outcome.bind_done h
    cases h
    refine ⟨fun r _ => ?_, ?_, fun _ => rfl, fun _ => rfl⟩
    · rw [writeMem_registers hwrite, readMem_registers hread]
    · rw [Instruction.target, hload]
      rfl
  | raise => cases h
  | crash => cases h

/-- The machine has trapped before the instruction wrote a register. -/
def TrapsFrom (m m' : Machine) : Prop :=
  ∃ (m₁ : Machine) (badVAddr : Int), m₁.registers = m.registers ∧ m' = m₁.raiseException badVAddr

theorem execute_raised {e : ExceptionType} (h : m.execute i = .raised e m') :
    TrapsFrom m m' := by
  unfold execute at h
  split at h
  · cases h
  · rcases Outcome.bind_raised h with hread | ⟨v, m₁, -, h⟩
    · exact ⟨m, _, rfl, readMem_raised hread⟩
    · cases h
  · rcases Outcome.bind_raised h with hwrite | ⟨v, m₁, -, h⟩
    · exact ⟨m, _, rfl, writeMem_raised hwrite⟩
    · cases h
  · rcases Outcome.bind_raised h with hread | ⟨v, m₁, hread, h⟩
    · exact ⟨m, _, rfl, readMem_raised hread⟩
    · rcases Outcome.bind_raised h with hwrite | ⟨w, m₂, -, h⟩
      · exact ⟨m₁, _, readMem_registers hread, writeMem_raised hwrite⟩
      · cases h
  · cases h
    exact ⟨m, _, rfl, rfl⟩
  · cases h

def instructionAt (m : Machine) : Option Instruction :=
  match m.fetch with
  | .done i _ => some i
  | _ => none

/-- The sequencing of an instruction that completes. -/
structure Sequenced (m : Machine) (i : Instruction) (m' : Machine) : Prop where
  prevPC : m'.registers prevPCReg = m.registers pcReg
  pc : m'.registers pcReg = m.registers nextPCReg
  nextPC : i.transfers = false → m'.registers nextPCReg = wrap (m.registers nextPCReg + 4)
  load : m'.registers loadReg = i.target
  loadValue : i.isLoad = false → m'.registers loadValueReg = 0
  badVAddr : m'.registers badVAddrReg = m.registers badVAddrReg

/-- The sequencing of an instruction that traps: it is to be restarted, or stepped over by
`IncreasePC`. -/
structure Trapped (m m' : Machine) : Prop where
  prevPC : m'.registers prevPCReg = m.registers prevPCReg
  pc : m'.registers pcReg = m.registers pcReg
  nextPC : m'.registers nextPCReg = m.registers nextPCReg
  load : m'.registers loadReg = 0
  loadValue : m'.registers loadValueReg = 0

theorem fetch_done {i : Instruction} (h : m.fetch = .done i m') :
    m'.registers = m.registers ∧ m.instructionAt = some i := by
  refine ⟨?_, by rw [instructionAt, h]⟩
  obtain ⟨raw, m₁, hread, h⟩ := Outcome.bind_done h
  cases h
  exact readMem_registers hread

/-- An instruction that completes has left the pseudo-registers to `complete`. -/
theorem oneInstruction_done (h : m.oneInstruction = .done () m') :
    ∃ i next m₂, m.instructionAt = some i ∧ m' = complete m₂ next ∧
      (∀ r, pcReg ≤ r → m₂.registers r = m.registers r) ∧ next.nextLoadReg = i.target ∧
      (i.isLoad = false → next.nextLoadValue = 0) ∧
      (i.transfers = false → next.pcAfter = wrap (m.registers nextPCReg + 4)) := by
  obtain ⟨i, m₁, hfetch, h⟩ := Outcome.bind_done h
  obtain ⟨next, m₂, hexec, h⟩ := Outcome.bind_done h
  cases h
  obtain ⟨hm₁, hi⟩ := fetch_done hfetch
  obtain ⟨hframe, hreg, hvalue, hpc⟩ := execute_done hexec
  refine ⟨i, next, m₂, hi, rfl, fun r hr => ?_, hreg, hvalue, hm₁ ▸ hpc⟩
  rw [hframe r fun hw => absurd (i.writes_lt hw) (not_lt.mpr hr), hm₁]

theorem oneInstruction_raised {e : ExceptionType} (h : m.oneInstruction = .raised e m') :
    TrapsFrom m m' := by
  rcases Outcome.bind_raised h with hfetch | ⟨i, m₁, hfetch, h⟩
  · rcases Outcome.bind_raised hfetch with hread | ⟨raw, m₁, -, h⟩
    · exact ⟨m, _, rfl, readMem_raised hread⟩
    · cases h
  · rcases Outcome.bind_raised h with hexec | ⟨next, m₂, -, h⟩
    · obtain ⟨m₂, bad, hm₂, rfl⟩ := execute_raised hexec
      exact ⟨m₂, bad, hm₂.trans (fetch_done hfetch).1, rfl⟩
    · cases h

section InRange
variable (hlt : m.registers loadReg < numGPRegs)
include hlt

theorem delayedLoad_above (nextReg nextValue : Int) {r : ℕ} (hr : numGPRegs ≤ r)
    (hload : r ≠ loadReg) (hvalue : r ≠ loadValueReg) :
    (m.delayedLoad nextReg nextValue).registers r = m.registers r := by
  unfold numGPRegs at hr hlt
  rw [delayedLoad_registers, if_neg (by omega), if_neg hvalue, if_neg hload, if_neg (by omega)]

theorem complete_registers (next : Next) :
    (m.complete next).registers prevPCReg = m.registers pcReg ∧
    (m.complete next).registers pcReg = m.registers nextPCReg ∧
    (m.complete next).registers nextPCReg = next.pcAfter ∧
    (m.complete next).registers loadReg = next.nextLoadReg ∧
    (m.complete next).registers loadValueReg = next.nextLoadValue ∧
    ∀ r, badVAddrReg ≤ r → (m.complete next).registers r = m.registers r := by
  have hpc : ∀ r, r = pcReg ∨ r = nextPCReg ∨ badVAddrReg ≤ r →
      (m.delayedLoad next.nextLoadReg next.nextLoadValue).registers r = m.registers r := by
    unfold pcReg nextPCReg badVAddrReg
    intro r hr
    apply delayedLoad_above hlt <;> simp only [numGPRegs, loadReg, loadValueReg] <;> omega
  refine ⟨?_, ?_, ?_, ?_, ?_, fun r hr => ?_⟩
  all_goals simp only [complete, advance_registers]
  · exact hpc pcReg (.inl rfl)
  · exact hpc nextPCReg (.inr (.inl rfl))
  · rfl
  · exact delayedLoad_registers _ _ _ _
  · exact delayedLoad_registers _ _ _ _
  · have h := hpc r (.inr (.inr hr))
    unfold badVAddrReg at hr
    rw [if_neg, if_neg, if_neg, h] <;> simp only [nextPCReg, pcReg, prevPCReg] <;> omega

theorem raiseException_above (badVAddr : Int) {r : ℕ} (hr : numGPRegs ≤ r) (hload : r ≠ loadReg)
    (hvalue : r ≠ loadValueReg) (hbad : r ≠ badVAddrReg) :
    (m.raiseException badVAddr).registers r = m.registers r := by
  have hset : (m.setRegister badVAddrReg badVAddr).registers loadReg < numGPRegs := hlt
  exact (delayedLoad_above hset 0 0 hr hload hvalue).trans (Function.update_of_ne hbad _ _)

theorem raiseException_trapped (badVAddr : Int) : Trapped m (m.raiseException badVAddr) where
  prevPC := by apply raiseException_above hlt <;> decide
  pc := by apply raiseException_above hlt <;> decide
  nextPC := by apply raiseException_above hlt <;> decide
  load := delayedLoad_registers _ _ _ _
  loadValue := delayedLoad_registers _ _ _ _

end InRange

theorem complete_gp (hnonneg : 0 ≤ m.registers loadReg) {d : ℕ} (hd : d < numGPRegs)
    (next : Next) :
    (m.complete next).registers d = if d = 0 then 0
      else if m.registers loadReg = d then m.registers loadValueReg else m.registers d := by
  have hload : d ≠ loadReg := (hd.trans (by decide)).ne
  have hvalue : d ≠ loadValueReg := (hd.trans (by decide)).ne
  have hpc : d ≠ nextPCReg ∧ d ≠ pcReg ∧ d ≠ prevPCReg :=
    ⟨(hd.trans (by decide)).ne, (hd.trans (by decide)).ne, (hd.trans (by decide)).ne⟩
  rw [complete, advance_registers, if_neg hpc.1, if_neg hpc.2.1, if_neg hpc.2.2,
    delayedLoad_registers, if_neg hvalue, if_neg hload]
  exact if_congr Iff.rfl rfl (if_congr (by omega) rfl rfl)

theorem target_range (i : Instruction) : 0 ≤ i.target ∧ i.target < numGPRegs := by
  have hrt : (i.rt : ℕ) < numGPRegs := i.rt.isLt
  unfold Instruction.target
  split
  · omega
  · decide

/-- The registers are sound again, and nothing outside the array has been written. -/
structure InArray (r r' : ℕ → Int) : Prop where
  sound : SoundRegisters r'
  outside : ∀ j, numTotalRegs ≤ j → r' j = r j

section Sound
variable (hm : SoundRegisters m.registers)
include hm

theorem oneInstruction_sequenced (h : m.oneInstruction = .done () m') :
    ∃ i, m.instructionAt = some i ∧ Sequenced m i m' := by
  obtain ⟨i, next, m₂, hi, rfl, hkeep, hreg, hvalue, hpc⟩ := oneInstruction_done h
  have hlt : m₂.registers loadReg < numGPRegs := hkeep loadReg (by decide) ▸ hm.load_lt
  obtain ⟨h₁, h₂, h₃, h₄, h₅, h₆⟩ := complete_registers hlt next
  refine ⟨i, hi, ⟨?_, ?_, ?_, ?_, ?_, ?_⟩⟩
  · rw [h₁, hkeep pcReg le_rfl]
  · rw [h₂, hkeep nextPCReg (by decide)]
  · exact fun ht => h₃.trans (hpc ht)
  · rw [h₄, hreg]
  · exact fun hl => h₅.trans (hvalue hl)
  · rw [h₆ badVAddrReg le_rfl, hkeep badVAddrReg (by decide)]

theorem delayedLoad_inArray {nextReg : Int} (nextValue : Int) (hnext : 0 ≤ nextReg)
    (hnext' : nextReg < numGPRegs) :
    InArray m.registers (m.delayedLoad nextReg nextValue).registers where
  sound := by
    have hload : (m.delayedLoad nextReg nextValue).registers loadReg = nextReg :=
      delayedLoad_registers _ _ _ _
    exact ⟨delayedLoad_registers _ _ _ _, hload ▸ hnext, hload ▸ hnext'⟩
  outside j hj := by
    unfold numTotalRegs at hj
    apply delayedLoad_above hm.load_lt <;>
      simp only [numGPRegs, loadReg, loadValueReg] <;> omega

theorem raiseException_inArray (badVAddr : Int) :
    InArray m.registers (m.raiseException badVAddr).registers := by
  have hset : SoundRegisters (m.setRegister badVAddrReg badVAddr).registers :=
    ⟨hm.zero, hm.load_nonneg, hm.load_lt⟩
  have hload := delayedLoad_inArray hset 0 le_rfl (by decide)
  refine ⟨hload.sound, fun j hj => (hload.outside j hj).trans (Function.update_of_ne ?_ _ _)⟩
  exact (lt_of_lt_of_le (by decide) hj : badVAddrReg < j).ne'

theorem oneInstruction_inArray (h : m.oneInstruction.machine = some m') :
    InArray m.registers m'.registers := by
  cases ho : m.oneInstruction with
  | abort =>
    rw [ho] at h
    cases h
  | raised e m₁ =>
    rw [ho] at h
    cases h
    obtain ⟨m₁, bad, hm₁, rfl⟩ := oneInstruction_raised ho
    rw [← hm₁] at hm ⊢
    exact raiseException_inArray hm bad
  | done u m₁ =>
    rw [ho] at h
    cases h
    obtain ⟨i, next, m₂, -, rfl, hkeep, hreg, -⟩ := oneInstruction_done ho
    have hlt : m₂.registers loadReg < numGPRegs := hkeep loadReg (by decide) ▸ hm.load_lt
    obtain ⟨-, -, -, hload, -, habove⟩ := complete_registers hlt next
    have hzero : (m₂.complete next).registers 0 = 0 := by
      rw [complete, advance_registers]
      exact delayedLoad_registers _ _ _ _
    rw [hreg] at hload
    refine ⟨⟨hzero, ?_, ?_⟩, fun j hj => ?_⟩
    · exact hload ▸ (target_range i).1
    · exact hload ▸ (target_range i).2
    · have hj' : badVAddrReg ≤ j := le_trans (by decide) hj
      rw [habove j hj', hkeep j (le_trans (by decide) hj')]

end Sound
end Machine

/-- What happens to the registers while a user program runs, whatever its memory holds: an
instruction up to its trap, a trap of the kernel's own access to user memory, and the
writes of a system call. -/
inductive UserStep (r r' : ℕ → Int) : Prop
  | instruction (m m' : Machine) : m.registers = r → m.oneInstruction.machine = some m' →
      m'.registers = r' → UserStep r r'
  | raise (m : Machine) (badVAddr : Int) : m.registers = r →
      (m.raiseException badVAddr).registers = r' → UserStep r r'
  | result {κ : Type} (k k' : Kernel κ) (v : Int) : k.machine.registers = r →
      Sys.writeRegister 2 v k = .ok ((), k') → k'.machine.registers = r' → UserStep r r'
  | increasePC {κ : Type} (k k' : Kernel κ) : k.machine.registers = r →
      Sys.increasePC k = .ok ((), k') → k'.machine.registers = r' → UserStep r r'

theorem Machine.InArray.update {r r' : ℕ → Int} (h : InArray r r') {n : ℕ} (hn : n ≠ 0)
    (hload : n ≠ loadReg) (hlt : n < numTotalRegs) (v : Int) :
    InArray r (Function.update r' n v) := by
  refine ⟨⟨?_, ?_, ?_⟩, fun j hj => ?_⟩
  · rw [Function.update_of_ne hn.symm]
    exact h.sound.zero
  · rw [Function.update_of_ne hload.symm]
    exact h.sound.load_nonneg
  · rw [Function.update_of_ne hload.symm]
    exact h.sound.load_lt
  · rw [Function.update_of_ne (lt_of_lt_of_le hlt hj).ne']
    exact h.outside j hj

theorem UserStep.inArray {r r' : ℕ → Int} (h : UserStep r r') (hr : SoundRegisters r) :
    Machine.InArray r r' := by
  have hsame : Machine.InArray r r := ⟨hr, fun _ _ => rfl⟩
  cases h with
  | instruction m m' hm hstep hm' =>
    subst hm hm'
    exact Machine.oneInstruction_inArray hr hstep
  | raise m badVAddr hm hm' =>
    subst hm hm'
    exact Machine.raiseException_inArray hr badVAddr
  | result k k' v hk hstep hk' =>
    subst hk hk'
    cases hstep
    exact hsame.update (by decide) (by decide) (by decide) v
  | increasePC k k' hk hstep hk' =>
    subst hk hk'
    cases hstep
    exact ((hsame.update (by decide) (by decide) (by decide) _).update
      (by decide) (by decide) (by decide) _).update (by decide) (by decide) (by decide) _

namespace Scheduler
open GuardedRun Machine
namespace State
variable {s s' : State} {a : Act}

/-- The steps of the system in which a user program runs by `UserStep`. -/
def UserActs (s : State) (a : Act) : Prop :=
  ∀ r, a = .instruction r → UserStep s.cpu.registers r

/-- Thread `t` has its registers in the machine. -/
def Runs (s : State) (t : Addr) : Prop := t = s.currentThread ∧ s.mode ≠ .switched

/-- The registers of the machine, and those saved for a thread that is not running. -/
structure SoundFile (s : State) : Prop where
  cpu : SoundRegisters s.cpu.registers
  outside : ∀ j, numTotalRegs ≤ j → s.cpu.registers j = 0
  saved : ∀ t u sp, s.user t = some u → u.space = some sp → ¬s.Runs t →
    SoundRegisters u.registers

theorem SoundFile.of_kept (h : s.SoundFile) (hcpu : InArray s.cpu.registers s'.cpu.registers)
    (hkept : ∀ t u sp, s'.user t = some u → u.space = some sp → ¬s'.Runs t →
      s.user t = some u ∧ ¬s.Runs t) : s'.SoundFile := by
  refine ⟨hcpu.sound, fun j hj => (hcpu.outside j hj).trans (h.outside j hj), ?_⟩
  intro t u sp hut hsp hn
  obtain ⟨hu, hn'⟩ := hkept t u sp hut hsp hn
  exact h.saved t u sp hu hsp hn'

theorem SoundFile.inArray (h : s.SoundFile) (hcpu : s'.cpu = s.cpu) :
    InArray s.cpu.registers s'.cpu.registers := by
  rw [hcpu]
  exact ⟨h.cpu, fun _ _ => rfl⟩

theorem SoundFile.of_same (h : s.SoundFile) (hs : Same s s')
    (hm : s'.mode ≠ .switched ↔ s.mode ≠ .switched) : s'.SoundFile := by
  refine h.of_kept (h.inArray hs.cpu) fun t u sp hut _ hn => ⟨hs.user ▸ hut, ?_⟩
  unfold Runs at hn ⊢
  rwa [hs.current, hm] at hn

theorem soundRegisters_save {u : User} {sp : Space} {c : Cpu} (hsp : u.space = some sp)
    (hc : SoundRegisters c.registers) : SoundRegisters (u.save c).registers := by
  have hreg := fun i : Fin numTotalRegs => save_registers hsp c i
  refine ⟨?_, ?_, ?_⟩
  · exact (hreg ⟨0, by decide⟩).trans hc.zero
  · exact hc.load_nonneg.trans_eq (hreg ⟨loadReg, by decide⟩).symm
  · exact (hreg ⟨loadReg, by decide⟩).trans_lt hc.load_lt

theorem SoundFile.of_givesUp (h : s.SoundFile) (hm : s.mode ≠ .switched) (hg : GivesUp s s') :
    s'.SoundFile := by
  cases hg with
  | stays hs hm' => exact h.of_same hs (iff_of_true hm' hm)
  | leaves hu hcpu hm' =>
    refine ⟨hcpu ▸ h.cpu, hcpu ▸ h.outside, fun t u sp hut hsp _ => ?_⟩
    rw [hu] at hut
    obtain ⟨v, hv, -, hvsp, rfl⟩ := saved_eq_some hut
    rw [hvsp] at hsp
    split
    · exact soundRegisters_save hsp h.cpu
    · next ht => exact h.saved t v sp hv hsp fun hr => ht hr.1

theorem initRegisters_inArray (sp : Space) (r : ℕ → Int) : InArray r (sp.initRegisters r) := by
  have hzero : InArray r fun i => if i < numTotalRegs then 0 else r i :=
    ⟨⟨rfl, le_rfl, (by decide : (0 : Int) < numGPRegs)⟩, fun j hj => if_neg (not_lt.mpr hj)⟩
  exact ((hzero.update (by decide) (by decide) (by decide) 0).update
    (by decide) (by decide) (by decide) 4).update (by decide) (by decide) (by decide) _

theorem cpu_delayedLoad_inArray {c : Cpu} (hc : SoundRegisters c.registers) :
    InArray c.registers (c.delayedLoad 0 0).registers :=
  delayedLoad_inArray (m := ⟨fun _ => 0, c.registers, none, none, 0⟩) hc 0 le_rfl (by decide)

theorem SoundFile.restore (h : s.SoundFile) {θ : Thread} (hm : s.mode = .switched)
    (hθ : s.threads s.currentThread = some θ) :
    InArray s.cpu.registers (s.cpu.restore θ).registers := by
  unfold Cpu.restore
  split
  · exact ⟨h.cpu, fun _ _ => rfl⟩
  · next sp hsp =>
    have hr := h.saved _ θ.user sp (user_of_thread hθ) hsp fun hr => hr.2 hm
    refine ⟨⟨hr.zero, hr.load_nonneg, hr.load_lt⟩, fun j hj => if_neg (not_lt.mpr hj)⟩

theorem SoundFile.step (h : s.SoundFile) (hi : Installed s) (hok : UserActs s a)
    (hs : step s a = some s') : s'.SoundFile := by
  -- registers are saved only where the processor is given up, and restored only in `resume`
  cases step_effect hi hs with
  | same hs hm => exact h.of_same hs (by rw [hm])
  | givesUp hm hg => exact h.of_givesUp hm hg
  | spawn t junk ht hne hu hcpu hcur hm =>
    refine h.of_kept (h.inArray hcpu) fun t' u sp hut hsp hn => ?_
    have htt : t' ≠ t := by
      rintro rfl
      rw [hu, Function.update_self] at hut
      cases hut
      cases hsp
    rw [hu, Function.update_of_ne htt] at hut
    unfold Runs at hn ⊢
    rw [hcur, hm] at hn
    exact ⟨hut, hn⟩
  | registers r hm ha hu hcpu hcur hm' =>
    have hr : InArray s.cpu.registers s'.cpu.registers := by
      rw [hcpu]
      rcases ha with rfl | ⟨-, rfl⟩
      · exact (hok r rfl).inArray h.cpu
      · exact cpu_delayedLoad_inArray h.cpu
    refine h.of_kept hr fun t u sp hut hsp hn => ?_
    unfold Runs at hn ⊢
    rw [hcur, hm'] at hn
    exact ⟨hu ▸ hut, hn⟩
  | execute u sp hm ha hcu hu hcpu hcur hm' =>
    refine h.of_kept (by rw [hcpu]; exact initRegisters_inArray sp _) ?_
    intro t v sp' hvt hsp' hn
    unfold Runs at hn ⊢
    rw [hcur, hm'] at hn
    have ht : t ≠ s.currentThread := fun ht => hn ⟨ht, hm⟩
    rw [hu, Function.update_of_ne ht] at hvt
    exact ⟨hvt, hn⟩
  | exit u s₁ hm hcu hu hcpu hcur hm₁ hg =>
    have h₁ : s₁.SoundFile := by
      refine h.of_kept (h.inArray hcpu) fun t v sp hvt hsp hn => ?_
      unfold Runs at hn ⊢
      rw [hcur, hm₁] at hn
      have ht : t ≠ s.currentThread := fun ht => hn ⟨ht, hm⟩
      rw [hu, Function.update_of_ne ht] at hvt
      exact ⟨hvt, hn⟩
    exact h₁.of_givesUp (hm₁ ▸ hm) hg
  | resume θ hm hθ hu hothers hcpu hcur hm' =>
    have hr : InArray s.cpu.registers s'.cpu.registers := by
      rw [hcpu]
      split
      · exact h.restore hm hθ
      · exact ⟨h.cpu, fun _ _ => rfl⟩
    refine h.of_kept hr fun t u sp hut hsp hn => ?_
    have ht : t ≠ s.currentThread := fun ht => hn ⟨ht.trans hcur.symm, hm'⟩
    rcases hothers t ht with hsame | hnone
    · exact ⟨hsame ▸ hut, fun hr => ht hr.1⟩
    · rw [hnone] at hut
      cases hut

theorem soundFile_of_reach {main : Addr} {pageTableSize : ℕ} {junk : ℕ → Int}
    (h : Reach step UserActs (init main pageTableSize junk) s) : s.SoundFile := by
  have hboth : Installed s ∧ s.SoundFile := by
    refine h.invariant (I := fun s => Installed s ∧ s.SoundFile) ⟨installed_init _ _ _, ?_⟩ ?_
    · refine ⟨⟨rfl, le_rfl, (by decide : (0 : Int) < numGPRegs)⟩, fun _ _ => rfl, ?_⟩
      intro t u sp hut hsp
      obtain ⟨θ, hθ, rfl⟩ := Option.map_eq_some_iff.mp hut
      simp only [init, Option.ite_none_right_eq_some, Option.some.injEq] at hθ
      cases hθ.2
      cases hsp
    · rintro s a s' ⟨hi, hs⟩ hok hstep
      exact ⟨hi.step hstep, hs.step hi hok hstep⟩
  exact hboth.2

/-- In every run, whatever the user programs are: register 0 is zero and `LoadReg` names a
general-purpose register, in the machine and in what is saved for a thread; nothing is
written outside the array; and an instruction leaves the pseudo-registers to the
sequencing of the simulator. -/
theorem registers_sound_in_every_run {main : Addr} {pageTableSize : ℕ} {junk : ℕ → Int}
    (h : Reach step UserActs (init main pageTableSize junk) s) :
    s.SoundFile ∧ ∀ m : Machine, m.registers = s.cpu.registers →
      (∀ m', m.oneInstruction = .done () m' →
        ∃ i, m.instructionAt = some i ∧ Sequenced m i m') ∧
      ∀ e m', m.oneInstruction = .raised e m' → Trapped m m' := by
  have hs := soundFile_of_reach h
  refine ⟨hs, fun m hm => ?_⟩
  have hm' : SoundRegisters m.registers := hm ▸ hs.cpu
  refine ⟨fun m' hdone => oneInstruction_sequenced hm' hdone, fun e m' hraised => ?_⟩
  obtain ⟨m₁, bad, hm₁, rfl⟩ := oneInstruction_raised hraised
  have ht := raiseException_trapped (m := m₁) (hm₁ ▸ hm'.load_lt) bad
  exact ⟨ht.prevPC.trans (congrFun hm₁ _), ht.pc.trans (congrFun hm₁ _),
    ht.nextPC.trans (congrFun hm₁ _), ht.load, ht.loadValue⟩

def zeroPage (r : ℕ → Int) : Machine :=
  ⟨fun _ => 0, r, none, some [⟨0, 0, true, false, false, false⟩], 1⟩

def started : ℕ → Int := (Space.mk none 1).initRegisters fun _ => 0

theorem zeroPage_started : ∃ m', (zeroPage started).oneInstruction = .done () m' ∧
    m'.registers pcReg = 4 := ⟨_, rfl, rfl⟩

theorem registers_sound_after_nop : ∃ s, s.cpu.registers pcReg = 4 ∧ s.SoundFile ∧
    Reach step UserActs (init 7 0 fun _ => 5) s := by
  obtain ⟨m', hstep, hpc⟩ := zeroPage_started
  have h₁ : Reach step UserActs (init 7 0 fun _ => 5)
      { init 7 0 fun _ => 5 with
        threads := Function.update (init 7 0 fun _ => 5).threads 7
          (some ⟨.running, 0, .body, fun _ => 5, some ⟨none, 1⟩⟩)
        cpu := ⟨started, none, 1⟩ } :=
    .single (a := .execute ⟨none, 1⟩) (fun r h => by cases h) rfl
  have h₂ := h₁.tail (a := .instruction m'.registers)
    (fun r h => by cases h; exact .instruction _ _ rfl (by rw [hstep]; rfl) rfl) rfl
  exact ⟨_, hpc, (registers_sound_in_every_run h₂).1, h₂⟩

end State
end Scheduler
end Nachos
