import Nachos.RegisterFile

namespace Nachos
open TwosComplement

namespace Machine

/-- What `CheckIfDue` does to the machine before it calls the handlers. -/
def flush (m : Machine) : Machine := m.delayedLoad 0 0

/-- The end of an instruction on the machine that loads at once. -/
def applyNow (m : Machine) (next : Next) : Machine :=
  ((m.setRegister next.nextLoadReg.toNat next.nextLoadValue).setRegister 0 0).advance next.pcAfter

def immediateInstruction (m : Machine) : Outcome Unit :=
  m.fetch.bind fun i m₁ => (m₁.execute i).bind fun next m₂ => .done () (m₂.applyNow next)

section Flush
variable {m : Machine}

def SameRest (m a : Machine) : Prop := ∃ r, a = { m with registers := r }

namespace SameRest
variable {a b : Machine}

theorem refl (m : Machine) : SameRest m m := ⟨m.registers, rfl⟩

theorem setRegister (h : SameRest m a) (k : ℕ) (v : Int) : SameRest m (a.setRegister k v) := by
  obtain ⟨r, rfl⟩ := h
  exact ⟨_, rfl⟩

theorem advance (h : SameRest m a) (pcAfter : Int) : SameRest m (a.advance pcAfter) :=
  ((h.setRegister _ _).setRegister _ _).setRegister _ _

theorem delayedLoad (h : SameRest m a) (nextReg nextValue : Int) :
    SameRest m (a.delayedLoad nextReg nextValue) :=
  (((h.setRegister _ _).setRegister _ _).setRegister _ _).setRegister _ _

theorem flush (h : SameRest m a) : SameRest m a.flush := h.delayedLoad 0 0

theorem eq_of_registers (ha : SameRest m a) (hb : SameRest m b)
    (h : ∀ r, a.registers r = b.registers r) : a = b := by
  obtain ⟨r, rfl⟩ := ha
  obtain ⟨r', rfl⟩ := hb
  exact congrArg (fun r => ({ m with registers := r } : Machine)) (funext h)

end SameRest

theorem flush_registers (m : Machine) (r : ℕ) :
    m.flush.registers r =
      if r = 0 then 0
      else if r = loadValueReg then 0
      else if r = loadReg then 0
      else if r = (m.registers loadReg).toNat then m.registers loadValueReg
      else m.registers r :=
  delayedLoad_registers m 0 0 r

def flushed (registers : ℕ → Int) (r : ℕ) : Int :=
  if r = 0 then 0
  else if r = loadValueReg then 0
  else if r = loadReg then 0
  else if r = (registers loadReg).toNat then registers loadValueReg
  else registers r

theorem flush_eq : flush = onRegisters flushed := by
  funext m
  exact (SameRest.refl m).flush.eq_of_registers ⟨_, rfl⟩ (flush_registers m)

theorem flush_flush (m : Machine) : m.flush.flush = m.flush := by
  have hregs : ∀ r, m.flush.flush.registers r = m.flush.registers r := by
    intro r
    rw [flush_registers m.flush, show m.flush.registers loadReg = 0 from flush_registers m _]
    by_cases hr : r = 0
    · rw [if_pos hr, hr]
      exact (flush_registers m 0).symm
    · simp only [flush_registers m r, Int.toNat_zero, if_neg hr]
      split_ifs <;> rfl
  exact (SameRest.refl m).flush.flush.eq_of_registers (SameRest.refl m).flush hregs

theorem flush_setRegister {k : ℕ} (v : Int) (hload : k ≠ loadReg) (hvalue : k ≠ loadValueReg)
    (hk : k = (m.registers loadReg).toNat → k = 0) :
    (m.flush.setRegister k v).flush = (m.setRegister k v).flush := by
  have hregs : ∀ r, (m.flush.setRegister k v).flush.registers r =
      (m.setRegister k v).flush.registers r := by
    intro r
    have hp : (m.flush.setRegister k v).registers loadReg = 0 :=
      (Function.update_of_ne hload.symm _ _).trans (flush_registers m _)
    have hp' : (m.setRegister k v).registers loadReg = m.registers loadReg :=
      Function.update_of_ne hload.symm _ _
    have hv' : (m.setRegister k v).registers loadValueReg = m.registers loadValueReg :=
      Function.update_of_ne hvalue.symm _ _
    rw [flush_registers, flush_registers, hp, hp', hv']
    simp only [setRegister, Function.update_apply, flush_registers m r, Int.toNat_zero]
    split_ifs <;> first | rfl | omega
  have hsame := SameRest.refl m
  exact (hsame.flush.setRegister k v).flush.eq_of_registers (hsame.setRegister k v).flush hregs

theorem flush_setRegisters {writes : List (ℕ × Int)}
    (hpseudo : ∀ k ∈ writes.map Prod.fst, k < pcReg)
    (hk : ∀ k ∈ writes.map Prod.fst, k = (m.registers loadReg).toNat → k = 0) :
    (m.flush.setRegisters writes).flush = (m.setRegisters writes).flush := by
  -- each write is moved out of both flushes; the second time nothing is pending
  induction writes generalizing m with
  | nil => exact flush_flush m
  | cons w ws ih =>
    simp only [List.map_cons, List.forall_mem_cons] at hpseudo hk
    obtain ⟨hw, hws⟩ := hpseudo
    have hload : w.1 ≠ loadReg := by unfold pcReg at hw; unfold loadReg; omega
    have hvalue : w.1 ≠ loadValueReg := by unfold pcReg at hw; unfold loadValueReg; omega
    have hp : (m.setRegister w.1 w.2).registers loadReg = m.registers loadReg :=
      Function.update_of_ne hload.symm _ _
    have hp' : (m.flush.setRegister w.1 w.2).registers loadReg = 0 :=
      (Function.update_of_ne hload.symm _ _).trans (flush_registers m _)
    calc ((m.flush.setRegister w.1 w.2).setRegisters ws).flush
        = ((m.flush.setRegister w.1 w.2).flush.setRegisters ws).flush :=
          (ih hws fun k _ h => by rw [hp'] at h; exact h).symm
      _ = ((m.setRegister w.1 w.2).flush.setRegisters ws).flush := by
          rw [flush_setRegister w.2 hload hvalue hk.1]
      _ = ((m.setRegister w.1 w.2).setRegisters ws).flush :=
          ih hws fun k hmem h => hk.2 k hmem (by rwa [hp] at h)

theorem flush_above (hlt : m.registers loadReg < numGPRegs) {r : ℕ} (hr : numGPRegs ≤ r)
    (hload : r ≠ loadReg) (hvalue : r ≠ loadValueReg) : m.flush.registers r = m.registers r :=
  delayedLoad_above hlt 0 0 hr hload hvalue

theorem flush_advance (pcAfter : Int) (hlt : m.registers loadReg < numGPRegs) :
    (m.advance pcAfter).flush = m.flush.advance pcAfter := by
  have hregs : ∀ r, (m.advance pcAfter).flush.registers r =
      (m.flush.advance pcAfter).registers r := by
    intro r
    have hpc := flush_above hlt (r := pcReg) (by decide) (by decide) (by decide)
    have hnpc := flush_above hlt (r := nextPCReg) (by decide) (by decide) (by decide)
    have hload : (m.advance pcAfter).registers loadReg = m.registers loadReg :=
      advance_registers ..
    have hvalue : (m.advance pcAfter).registers loadValueReg = m.registers loadValueReg :=
      advance_registers ..
    by_cases hr : r = nextPCReg ∨ r = pcReg ∨ r = prevPCReg
    · -- no load goes to the program counters
      obtain ⟨h₁, h₂, h₃⟩ : numGPRegs ≤ r ∧ r ≠ loadReg ∧ r ≠ loadValueReg := by
        rcases hr with rfl | rfl | rfl <;> decide
      rw [flush_above (hload ▸ hlt) h₁ h₂ h₃, advance_registers, advance_registers, hpc, hnpc,
        flush_above hlt h₁ h₂ h₃]
    · rw [not_or, not_or] at hr
      have hadvance : ∀ n : Machine, (n.advance pcAfter).registers r = n.registers r := by
        intro n
        rw [advance_registers, if_neg hr.1, if_neg hr.2.1, if_neg hr.2.2]
      rw [hadvance, flush_registers, hload, hvalue, hadvance, flush_registers]
  have hsame := SameRest.refl m
  exact (hsame.advance pcAfter).flush.eq_of_registers (hsame.flush.advance pcAfter) hregs

theorem flush_delayedLoad {nextReg : Int} (nextValue : Int) (hnext : nextReg < numGPRegs) :
    (m.delayedLoad nextReg nextValue).flush =
      (m.flush.setRegister nextReg.toNat nextValue).setRegister 0 0 := by
  have hregs : ∀ r, (m.delayedLoad nextReg nextValue).flush.registers r =
      ((m.flush.setRegister nextReg.toNat nextValue).setRegister 0 0).registers r := by
    intro r
    rw [flush_registers,
      show (m.delayedLoad nextReg nextValue).registers loadReg = nextReg from
        delayedLoad_registers ..,
      show (m.delayedLoad nextReg nextValue).registers loadValueReg = nextValue from
        delayedLoad_registers .., delayedLoad_registers]
    simp only [setRegister, Function.update_apply, flush_registers m]
    simp only [numGPRegs, loadReg, loadValueReg] at hnext ⊢
    split_ifs <;> first | rfl | omega
  have hsame := SameRest.refl m
  exact (hsame.delayedLoad nextReg nextValue).flush.eq_of_registers
    ((hsame.flush.setRegister _ _).setRegister _ _) hregs

/-- The end of an instruction, flushed, is the end on the machine that loads at once. -/
theorem flush_complete {next : Next} (hnext : next.nextLoadReg < numGPRegs) :
    (m.complete next).flush = m.flush.applyNow next := by
  have hlt : (m.delayedLoad next.nextLoadReg next.nextLoadValue).registers loadReg <
      numGPRegs := (delayedLoad_registers ..).trans_lt hnext
  rw [complete, flush_advance _ hlt, flush_delayedLoad _ hnext]
  rfl

theorem applyNow_flush (next : Next) (hload : m.registers loadReg = 0)
    (hvalue : m.registers loadValueReg = 0) : m.flush.applyNow next = m.applyNow next := by
  have hregs : ∀ r, (m.flush.applyNow next).registers r = (m.applyNow next).registers r := by
    intro r
    simp only [applyNow, advance_registers, setRegister, Function.update_apply,
      flush_registers m, hload, hvalue, Int.toNat_zero]
    simp only [loadReg, loadValueReg, nextPCReg, pcReg, prevPCReg] at *
    split_ifs <;> simp_all
  have hsame := SameRest.refl m
  have happly : ∀ {a : Machine}, SameRest m a → SameRest m (a.applyNow next) := fun h =>
    ((h.setRegister _ _).setRegister _ _).advance _
  exact (happly hsame.flush).eq_of_registers (happly hsame) hregs

end Flush

section Step
variable {m : Machine} {i : Instruction} (hm : SoundRegisters m.registers)
include hm

theorem flush_sound : SoundRegisters m.flush.registers :=
  (delayedLoad_inArray hm 0 le_rfl (by decide)).sound

theorem flush_of_ne {r : ℕ} (hr : r < numGPRegs)
    (hne : m.registers loadReg ≠ 0 → r ≠ (m.registers loadReg).toNat) :
    m.flush.registers r = m.registers r := by
  have hnonneg := hm.load_nonneg
  rw [flush_registers]
  split_ifs with h₀ h₁ h₂ h₃
  · rw [h₀, hm.zero]
  · subst h₁
    exact absurd hr (by decide)
  · subst h₂
    exact absurd hr (by decide)
  · exact absurd h₃ (hne (by omega))
  · rfl

omit hm in
theorem rt_ne_pseudo (i : Instruction) : (i.rt : ℕ) ≠ loadReg ∧ (i.rt : ℕ) ≠ loadValueReg := by
  have hrt := i.rt.isLt
  unfold numGPRegs at hrt
  unfold loadReg loadValueReg
  omega

theorem old_flush (hrt : (i.rt : ℕ) ≠ 0) :
    (i.operands m.flush.registers).old = (i.operands m.registers).old := by
  have hnonneg := hm.load_nonneg
  obtain ⟨hload, hvalue⟩ := rt_ne_pseudo i
  have hnone : m.flush.registers loadReg = 0 := flush_registers ..
  simp only [Instruction.operands, hnone]
  rw [if_neg (by omega), flush_registers, if_neg hrt, if_neg hvalue, if_neg hload]
  exact if_congr (by omega) rfl rfl

/-- The two machines see the same effect, but for the value of a load into register 0. -/
theorem effect_flush
    (hread : m.registers loadReg ≠ 0 → (m.registers loadReg).toNat ∉ i.reads) :
    i.effect (i.operands m.flush.registers) = i.effect (i.operands m.registers) ∨
    (i.rt : ℕ) = 0 ∧ ∃ addr size extend extend',
      i.effect (i.operands m.registers) = .load addr size extend ∧
      i.effect (i.operands m.flush.registers) = .load addr size extend' := by
  have habove : ∀ r, numGPRegs ≤ r → r ≠ loadReg → r ≠ loadValueReg →
      m.flush.registers r = m.registers r := fun r => flush_above hm.load_lt
  have heq : i.effect (i.operands m.flush.registers) =
      i.effect { i.operands m.registers with old := (i.operands m.flush.registers).old } := by
    apply Instruction.effect_congr
    · intro hrs
      refine flush_of_ne hm i.rs.isLt fun hp he => hread hp ?_
      simp [Instruction.reads, hrs, ← he]
    · intro hrt
      refine flush_of_ne hm i.rt.isLt fun hp he => hread hp ?_
      simp [Instruction.reads, hrt, ← he]
    · exact habove hiReg (by decide) (by decide) (by decide)
    · exact habove loReg (by decide) (by decide) (by decide)
    · exact habove nextPCReg (by decide) (by decide) (by decide)
    · rfl
  rw [heq]
  by_cases hrt : (i.rt : ℕ) = 0
  · exact (Instruction.effect_old _).imp_right fun h => ⟨hrt, h⟩
  · left
    rw [old_flush hm hrt]

theorem raiseException_flush (badVAddr : Int) :
    m.flush.raiseException badVAddr = (m.raiseException badVAddr).flush := by
  have hlt := hm.load_lt
  calc m.flush.raiseException badVAddr
      = (m.setRegister badVAddrReg badVAddr).flush :=
        flush_setRegister badVAddr (by decide) (by decide) fun h => by
          unfold badVAddrReg at h
          unfold numGPRegs at hlt
          omega
    _ = (m.raiseException badVAddr).flush := (flush_flush _).symm

theorem raiseException_flush_of_registers {m' : Machine} (h : m'.registers = m.registers)
    (badVAddr : Int) : m'.flush.raiseException badVAddr = (m'.raiseException badVAddr).flush :=
  raiseException_flush (h ▸ hm) badVAddr

theorem readMem_flush (addr size : Int) :
    m.flush.readMem addr size = (m.readMem addr size).map flush := by
  rw [flush_eq]
  refine readMem_onRegisters m size fun m' h => ?_
  rw [← flush_eq]
  exact raiseException_flush_of_registers hm h addr

theorem writeMem_flush (addr size value : Int) :
    m.flush.writeMem addr size value = (m.writeMem addr size value).map flush := by
  rw [flush_eq]
  refine writeMem_onRegisters m size value fun m' h => ?_
  rw [← flush_eq]
  exact raiseException_flush_of_registers hm h addr

theorem fetch_flush : m.flush.fetch = m.fetch.map flush := by
  have hpc : m.flush.registers pcReg = m.registers pcReg :=
    flush_above hm.load_lt (by decide) (by decide) (by decide)
  rw [fetch, hpc, readMem_flush hm]
  exact Outcome.map_bind fun _ _ _ => rfl

theorem instructionAt_flush : m.flush.instructionAt = m.instructionAt := by
  unfold instructionAt
  rw [fetch_flush hm]
  cases m.fetch <;> rfl

omit hm in
theorem applyNow_zero (m : Machine) (pcAfter v w : Int) :
    m.applyNow ⟨pcAfter, 0, v⟩ = m.applyNow ⟨pcAfter, 0, w⟩ := by
  unfold applyNow setRegister
  simp only [Int.toNat_zero, Function.update_idem]

omit hm in
/-- The writes of an instruction that leaves the pending register alone. -/
theorem goOn_flush {writes : List (ℕ × Int)} (hmap : writes.map Prod.fst = i.writes)
    (hwrite : m.registers loadReg ≠ 0 → (m.registers loadReg).toNat ∉ i.writes)
    (pcAfter : Int) : (m.flush.setRegisters writes).applyNow ⟨pcAfter, 0, 0⟩ =
      ((m.setRegisters writes).complete ⟨pcAfter, 0, 0⟩).flush := by
  have hpseudo : ∀ k ∈ writes.map Prod.fst, k < pcReg := by
    rw [hmap]
    exact fun k hk => i.writes_lt hk
  have hk : ∀ k ∈ writes.map Prod.fst, k = (m.registers loadReg).toNat → k = 0 := by
    intro k hk he
    by_contra hne
    exact hwrite (by omega) (hmap ▸ he ▸ hk)
  have hnone : ∀ r, pcReg ≤ r → (m.flush.setRegisters writes).registers r = m.flush.registers r :=
    fun r hr => setRegisters_registers _ fun h => absurd (hpseudo r h) (not_lt.mpr hr)
  rw [flush_complete (show (0 : Int) < numGPRegs by decide), ← flush_setRegisters hpseudo hk]
  refine (applyNow_flush _ ?_ ?_).symm
  · exact (hnone _ (by decide)).trans (flush_registers ..)
  · exact (hnone _ (by decide)).trans (flush_registers ..)

theorem execute_flush
    (hread : m.registers loadReg ≠ 0 → (m.registers loadReg).toNat ∉ i.reads)
    (hwrite : m.registers loadReg ≠ 0 → (m.registers loadReg).toNat ∉ i.writes) :
    ((m.flush.execute i).bind fun next m₂ => .done () (m₂.applyNow next)) =
      ((m.execute i).bind fun next m₂ => .done () (m₂.complete next)).map flush := by
  have hpc : m.flush.registers nextPCReg = m.registers nextPCReg :=
    flush_above hm.load_lt (by decide) (by decide) (by decide)
  have hrt : ((i.rt : ℕ) : Int) < numGPRegs := by exact_mod_cast i.rt.isLt
  have hzero : (0 : Int) < numGPRegs := by decide
  have hfits := i.effect_fits (i.operands m.registers)
  unfold execute
  rw [hpc]
  -- the effects are the same on both machines, except for what is loaded into register 0
  rcases effect_flush hm hread with heq | ⟨hrt₀, addr, size, extend, extend', he, he'⟩
  · rw [heq]
    generalize i.effect (i.operands m.registers) = effect at hfits
    cases hfits with
    | goOn _ hmap _ => exact congrArg (Outcome.done ()) (goOn_flush hmap hwrite _)
    | @load addr size extend _ =>
      dsimp only
      rw [readMem_flush hm]
      cases m.readMem addr size with
      | done v m' => exact congrArg (Outcome.done ()) (flush_complete hrt).symm
      | raised e m' => rfl
      | abort => rfl
    | @store addr size value _ =>
      dsimp only
      rw [writeMem_flush hm]
      cases m.writeMem addr size value with
      | done v m' => exact congrArg (Outcome.done ()) (flush_complete hzero).symm
      | raised e m' => rfl
      | abort => rfl
    | @merge addr insert _ =>
      dsimp only
      rw [readMem_flush hm]
      cases hr : m.readMem addr 4 with
      | done v m' =>
        have hm' : SoundRegisters m'.registers := readMem_registers hr ▸ hm
        simp only [Outcome.map, Outcome.bind, writeMem_flush hm']
        cases m'.writeMem addr 4 (insert v) with
        | done u m'' => exact congrArg (Outcome.done ()) (flush_complete hzero).symm
        | raised e m'' => rfl
        | abort => rfl
      | raised e m' => rfl
      | abort => rfl
    | @raise which badVAddr =>
      exact congrArg (Outcome.raised which) (raiseException_flush hm badVAddr)
    | crash => rfl
  · rw [he, he']
    dsimp only
    rw [readMem_flush hm]
    cases m.readMem addr size with
    | done v m' =>
      refine congrArg (Outcome.done ()) ?_
      rw [flush_complete hrt, hrt₀]
      exact applyNow_zero ..
    | raised e m' => rfl
    | abort => rfl

/-- An instruction that neither reads nor writes the pending register does the same on the
two machines, and traps on both or on neither. -/
theorem oneInstruction_flush (hi : m.instructionAt = some i)
    (hread : m.registers loadReg ≠ 0 → (m.registers loadReg).toNat ∉ i.reads)
    (hwrite : m.registers loadReg ≠ 0 → (m.registers loadReg).toNat ∉ i.writes) :
    m.flush.immediateInstruction = m.oneInstruction.map flush := by
  unfold immediateInstruction
  rw [fetch_flush hm]
  refine Outcome.map_bind fun j m₁ hfetch => ?_
  obtain ⟨hm₁, hj⟩ := fetch_done hfetch
  obtain rfl : i = j := Option.some.inj (hi.symm.trans hj)
  rw [← hm₁] at hm hread hwrite
  exact execute_flush hm hread hwrite

end Step

def Outcome.result {α : Type} : Outcome α → Option Machine
  | .done _ m => some m
  | _ => none

theorem Outcome.result_map {α : Type} (f : Machine → Machine) (r : Outcome α) :
    (r.map f).result = r.result.map f := by
  cases r <;> rfl

inductive Event where
  | instruction (i : Instruction)
  | interrupt

def Event.instruction? : Event → Option Instruction
  | .instruction i => some i
  | .interrupt => none

def instructions (es : List Event) : List Instruction := es.filterMap Event.instruction?

/-- The run stops if memory holds another instruction or if the instruction traps. -/
def run (m : Machine) : List Event → Option Machine
  | [] => some m
  | .interrupt :: es => m.flush.run es
  | .instruction i :: es =>
    if m.instructionAt = some i then m.oneInstruction.result.bind fun m' => m'.run es else none

/-- The same instructions on the machine that loads at once. -/
def immediateRun (m : Machine) : List Instruction → Option Machine
  | [] => some m
  | i :: is =>
    if m.instructionAt = some i then
      m.immediateInstruction.result.bind fun m' => m'.immediateRun is
    else none

/-- No instruction uses the register that the load right before it is still to fill;
`pending` is such a register for the first one. -/
def SlotsFree (used : Instruction → List ℕ) (pending : Int) : List Instruction → Prop
  | [] => True
  | i :: is => (pending ≠ 0 → pending.toNat ∉ used i) ∧ SlotsFree used i.target is

theorem SlotsFree.flush {used : Instruction → List ℕ} {pending : Int} {is : List Instruction}
    (h : SlotsFree used pending is) : SlotsFree used 0 is := by
  cases is with
  | nil => trivial
  | cons i is => exact ⟨fun h₀ => absurd rfl h₀, h.2⟩

theorem run_flush {m : Machine} {es : List Event} (hm : SoundRegisters m.registers)
    (hread : SlotsFree Instruction.reads (m.registers loadReg) (instructions es))
    (hwrite : SlotsFree Instruction.writes (m.registers loadReg) (instructions es)) :
    (m.run es).map flush = m.flush.immediateRun (instructions es) := by
  induction es generalizing m with
  | nil => rfl
  | cons e es ih =>
    cases e with
    | interrupt =>
      -- the flush comes early, and the machine that loads at once does not notice
      have hnone : m.flush.registers loadReg = 0 := flush_registers ..
      have hrun := ih (flush_sound hm) (hnone ▸ hread.flush) (hnone ▸ hwrite.flush)
      rw [flush_flush] at hrun
      exact hrun
    | instruction i =>
      change (if m.instructionAt = some i then _ else none).map flush =
        if m.flush.instructionAt = some i then _ else none
      rw [instructionAt_flush hm]
      split_ifs with hi
      · rw [oneInstruction_flush hm hi hread.1 hwrite.1, Outcome.result_map]
        cases ho : m.oneInstruction with
        | done u m' =>
          obtain ⟨j, hj, hseq⟩ := oneInstruction_sequenced hm ho
          obtain rfl : i = j := Option.some.inj (hi.symm.trans hj)
          have hstep : m.oneInstruction.machine = some m' := by rw [ho]; rfl
          exact ih (oneInstruction_inArray hm hstep).sound (hseq.load ▸ hread.2)
            (hseq.load ▸ hwrite.2)
        | raised e m' => rfl
        | abort => rfl
      · rfl

/-- If no instruction reads or writes the register that the load right before it is still
to fill, then the interrupts taken along the way do not matter: flushed, the machine is the
one that loads at once. -/
theorem interrupts_unseen {m : Machine} {es : List Event} (hm : SoundRegisters m.registers)
    (hread : SlotsFree Instruction.reads (m.registers loadReg) (instructions es))
    (hwrite : SlotsFree Instruction.writes (m.registers loadReg) (instructions es)) :
    (m.run es).map flush = m.flush.immediateRun (instructions es) ∧
    ∀ es', instructions es' = instructions es → (m.run es').map flush = (m.run es).map flush := by
  have hrun := run_flush hm hread hwrite
  refine ⟨hrun, fun es' he => ?_⟩
  rw [hrun, ← he]
  exact run_flush hm (he ▸ hread) (he ▸ hwrite)

/-- One page with `LW r1, 8(r0)`, a second instruction, and the word 7 at address 8. -/
def slotMachine (second : List UInt8) : Machine where
  mainMemory a := ([0x08, 0x00, 0x01, 0x8c] ++ second ++ [7, 0, 0, 0]).getD a.toNat 0
  registers := Function.update (fun _ => 0) nextPCReg 4
  tlb := none
  pageTable := some [⟨0, 0, true, false, false, false⟩]
  pageTableSize := 1

theorem slotMachine_sound (second : List UInt8) :
    SoundRegisters (slotMachine second).registers :=
  ⟨rfl, le_rfl, (by decide : (0 : Int) < numGPRegs)⟩

def loadWord : Instruction := .decode 0x8c010008
def setSame : Instruction := .decode 0x24010005
def setOther : Instruction := .decode 0x24020005

/-- `ADDIU r1` right after `LW r1`: the load wins, unless an interrupt comes between them. -/
theorem load_overtakes_write :
    let m := slotMachine [0x05, 0x00, 0x01, 0x24]
    let r1 := fun m' : Machine => m'.flush.registers 1
    SlotsFree Instruction.reads (m.registers loadReg) [loadWord, setSame] ∧
    (m.run [.instruction loadWord, .instruction setSame]).map r1 = some 7 ∧
    (m.run [.instruction loadWord, .interrupt, .instruction setSame]).map r1 = some 5 ∧
    (m.flush.immediateRun [loadWord, setSame]).map r1 = some 5 := by
  refine ⟨⟨by decide, by decide, trivial⟩, ?_, ?_, ?_⟩ <;> decide +kernel

theorem interrupts_unseen_other :
    let m := slotMachine [0x05, 0x00, 0x02, 0x24]
    (m.flush.immediateRun [loadWord, setOther]).isSome = true ∧
    (m.run [.instruction loadWord, .instruction setOther]).map flush =
      m.flush.immediateRun [loadWord, setOther] ∧
    (m.run [.instruction loadWord, .interrupt, .instruction setOther]).map flush =
      (m.run [.instruction loadWord, .instruction setOther]).map flush := by
  intro m
  have hread : SlotsFree Instruction.reads (m.registers loadReg)
      (instructions [.instruction loadWord, .instruction setOther]) :=
    ⟨by decide, by decide, trivial⟩
  have hwrite : SlotsFree Instruction.writes (m.registers loadReg)
      (instructions [.instruction loadWord, .instruction setOther]) :=
    ⟨by decide, by decide, trivial⟩
  have h := interrupts_unseen (slotMachine_sound _) hread hwrite
  exact ⟨by decide +kernel, h.1, h.2 [.instruction loadWord, .interrupt, .instruction setOther] rfl⟩

end Machine
end Nachos
