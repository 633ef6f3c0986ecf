import Nachos.Lib.TwosComplement

namespace Nachos
open TwosComplement

def pageSize : ℕ := 128
def numPhysPages : ℕ := 128
def memorySize : ℕ := numPhysPages * pageSize
def tlbSize : ℕ := 4

def stackReg : ℕ := 29
def pcReg : ℕ := 34
def nextPCReg : ℕ := 35
def prevPCReg : ℕ := 36
def loadReg : ℕ := 37
def loadValueReg : ℕ := 38
def badVAddrReg : ℕ := 39
def numTotalRegs : ℕ := 40

inductive ExceptionType where
  | noException | syscallException | pageFaultException | readOnlyException
  | busErrorException | addressErrorException | overflowException
  | illegalInstrException | numExceptionTypes
  deriving DecidableEq, Repr

structure TranslationEntry where
  virtualPage : Int
  physicalPage : Int
  valid : Bool
  readOnly : Bool
  use : Bool
  dirty : Bool
  deriving DecidableEq, Repr

abbrev Memory := Int → UInt8

/-- `mainMemory` is the host's memory seen from the start of the array, so that a byte outside
`[0, MemorySize)` can be named as well.  A null pointer to a table is `none`. -/
structure Machine where
  mainMemory : Memory
  registers : ℕ → Int
  tlb : Option (List TranslationEntry)
  pageTable : Option (List TranslationEntry)
  pageTableSize : ℕ

namespace Machine

/-- A result, an exception, each with the machine it leaves, or a failed assertion. -/
inductive Outcome (α : Type) where
  | done (a : α) (m : Machine)
  | raised (e : ExceptionType) (m : Machine)
  | abort

def Outcome.seen {α : Type} : Outcome α → Option (ExceptionType ⊕ α)
  | .done a _ => some (.inr a)
  | .raised e _ => some (.inl e)
  | .abort => none

theorem Outcome.done_of_seen {α : Type} {r : Outcome α} {a : α} (h : r.seen = some (.inr a)) :
    ∃ m, r = .done a m := by
  cases r with
  | done b m =>
    cases h
    exact ⟨m, rfl⟩
  | raised e m => cases h
  | abort => cases h

theorem Outcome.raised_of_seen {α : Type} {r : Outcome α} {e : ExceptionType}
    (h : r.seen = some (.inl e)) : ∃ m, r = .raised e m := by
  cases r with
  | done b m => cases h
  | raised e m =>
    cases h
    exact ⟨m, rfl⟩
  | abort => cases h

def Outcome.machine {α : Type} : Outcome α → Option Machine
  | .done _ m => some m
  | .raised _ m => some m
  | .abort => none

def setRegister (m : Machine) (num : ℕ) (value : Int) : Machine :=
  { m with registers := Function.update m.registers num value }

def delayedLoad (m : Machine) (nextReg nextValue : Int) : Machine :=
  (((m.setRegister (m.registers loadReg).toNat (m.registers loadValueReg)).setRegister
    loadReg nextReg).setRegister loadValueReg nextValue).setRegister 0 0

/-- The end of `OneInstruction`, with `pcAfter` as the instruction has left it. -/
def advance (m : Machine) (pcAfter : Int) : Machine :=
  ((m.setRegister prevPCReg (m.registers pcReg)).setRegister pcReg
    (m.registers nextPCReg)).setRegister nextPCReg pcAfter

/-- The machine as `RaiseException` hands it to `ExceptionHandler`. -/
def raiseException (m : Machine) (badVAddr : Int) : Machine :=
  (m.setRegister badVAddrReg badVAddr).delayedLoad 0 0

/-- The entry for a virtual page, and the machine with that entry rewritten. -/
def findEntry (m : Machine) (vpn : ℕ) :
    Outcome (TranslationEntry × (TranslationEntry → Machine)) :=
  match m.tlb with
  | none =>
    if m.pageTableSize ≤ vpn then .raised .addressErrorException m
    else
      match m.pageTable.bind fun t => t[vpn]? with
      | none => .abort
      | some e =>
        if e.valid then
          .done (e, fun e' => { m with pageTable := m.pageTable.map fun t => t.set vpn e' }) m
        else .raised .pageFaultException m
  | some t =>
    match (t.take tlbSize).findIdx? fun e => e.valid && e.virtualPage == (vpn : Int) with
    | none => .raised .pageFaultException m
    | some i =>
      match t[i]? with
      | none => .abort
      | some e => .done (e, fun e' => { m with tlb := some (t.set i e') }) m

def misaligned (virtAddr size : Int) : Bool :=
  (size == 4 && virtAddr % 4 != 0) || (size == 2 && virtAddr % 2 != 0)

def translate (m : Machine) (virtAddr size : Int) (writing : Bool) : Outcome Int :=
  if misaligned virtAddr size then .raised .addressErrorException m
  -- exactly one of the two tables must be there
  else if m.tlb.isNone = m.pageTable.isNone then .abort
  else
    let vpn := unsigned virtAddr / pageSize
    let offset := unsigned virtAddr % pageSize
    match m.findEntry vpn with
    | .raised e m' => .raised e m'
    | .abort => .abort
    | .done (entry, put) _ =>
      if entry.readOnly && writing then .raised .readOnlyException m
      else
        let pageFrame := unsigned entry.physicalPage
        if numPhysPages ≤ pageFrame then .raised .busErrorException m
        else
          let m' := put { entry with use := true, dirty := entry.dirty || writing }
          let physAddr : Int := (pageFrame * pageSize + offset : ℕ)
          if 0 ≤ physAddr ∧ physAddr + size ≤ memorySize then .done physAddr m' else .abort

/-- The value of the `size` bytes at `physAddr`, sign-extended as `char` and `int` are. -/
def load (mem : Memory) (physAddr size : Int) : Option Int :=
  let b (k : ℕ) : Int := (mem (physAddr + k)).toNat
  if size = 1 then some (mem physAddr).toBitVec.toInt
  else if size = 2 then some (b 0 + 256 * b 1)
  else if size = 4 then some (wrap (b 0 + 256 * b 1 + 65536 * b 2 + 16777216 * b 3))
  else none

def byteOf (value : Int) (k : ℕ) : UInt8 := UInt8.ofNat (unsigned value / 256 ^ k % 256)

def store (mem : Memory) (physAddr size value : Int) : Option Memory :=
  if size = 1 ∨ size = 2 ∨ size = 4 then
    some fun a =>
      if physAddr ≤ a ∧ a < physAddr + size then byteOf value (a - physAddr).toNat else mem a
  else none

def readMem (m : Machine) (addr size : Int) : Outcome Int :=
  match m.translate addr size false with
  | .raised e m' => .raised e (m'.raiseException addr)
  | .abort => .abort
  | .done physicalAddress m' =>
    match load m'.mainMemory physicalAddress size with
    | some v => .done v m'
    | none => .abort

def writeMem (m : Machine) (addr size value : Int) : Outcome Unit :=
  match m.translate addr size true with
  | .raised e m' => .raised e (m'.raiseException addr)
  | .abort => .abort
  | .done physicalAddress m' =>
    match store m'.mainMemory physicalAddress size value with
    | some mem => .done () { m' with mainMemory := mem }
    | none => .abort

def frames (m : Machine) : List Int :=
  ((m.pageTable.getD []).take m.pageTableSize).map TranslationEntry.physicalPage

/-- The bytes of a frame number, as `Translate` reads it. -/
def InFrame (f a : Int) : Prop :=
  (unsigned f * pageSize : ℕ) ≤ a ∧ a < (unsigned f * pageSize + pageSize : ℕ)

/-- Without a TLB the outcome is read off the page table entry. -/
theorem translate_eq {m : Machine} {t : List TranslationEntry} (htlb : m.tlb = none)
    (ht : m.pageTable = some t) (virtAddr size : Int) (writing : Bool) :
    m.translate virtAddr size writing =
      if misaligned virtAddr size then .raised .addressErrorException m
      else if m.pageTableSize ≤ unsigned virtAddr / pageSize then
        .raised .addressErrorException m
      else
        match t[unsigned virtAddr / pageSize]? with
        | none => .abort
        | some e =>
          if e.valid = false then .raised .pageFaultException m
          else if e.readOnly && writing then .raised .readOnlyException m
          else if numPhysPages ≤ unsigned e.physicalPage then .raised .busErrorException m
          else
            let pa : Int :=
              (unsigned e.physicalPage * pageSize + unsigned virtAddr % pageSize : ℕ)
            if pa + size ≤ memorySize then
              .done pa { m with pageTable := some (t.set (unsigned virtAddr / pageSize)
                { e with use := true, dirty := e.dirty || writing }) }
            else .abort := by
  simp only [translate, findEntry, htlb, ht, Option.isNone_none, Option.isNone_some,
    Option.bind_some, Option.map_some, Bool.true_eq_false, if_false]
  split_ifs with h1 h2
  · rfl
  · rfl
  · cases he : t[unsigned virtAddr / pageSize]? with
    | none => rfl
    | some e =>
      by_cases hv : e.valid = true
      · simp only [hv, if_true, Bool.true_eq_false, if_false, Int.natCast_nonneg, true_and]
      · simp only [hv, Bool.false_eq_true, if_false, if_true]

/-- A translated access lies in one of the frames listed, and changes no memory. -/
theorem translate_done {m m' : Machine} {virtAddr size pa : Int} {writing : Bool}
    (htlb : m.tlb = none) (h : m.translate virtAddr size writing = .done pa m') :
    m'.mainMemory = m.mainMemory ∧ m'.tlb = none ∧ ∃ f ∈ m.frames,
      ∀ k, 0 ≤ k → k < size → (size = 1 ∨ size = 2 ∨ size = 4) → InFrame f (pa + k) := by
  cases ht : m.pageTable with
  | none => simp [translate, htlb, ht] at h; split_ifs at h
  | some t =>
    rw [translate_eq htlb ht] at h
    split_ifs at h with h1 h2
    split at h
    · cases h
    · next e he =>
      dsimp only at h
      split_ifs at h with h3 h4 h5 h6
      injection h with hpa hm
      refine ⟨by rw [← hm], by rw [← hm, htlb], e.physicalPage, ?_, ?_⟩
      · have hlt : unsigned virtAddr / pageSize < m.pageTableSize := by omega
        have : (t.take m.pageTableSize)[unsigned virtAddr / pageSize]? = some e := by
          rw [List.getElem?_take, if_pos hlt, he]
        simp only [frames, ht, Option.getD_some, List.mem_map]
        exact ⟨e, List.mem_of_getElem? this, rfl⟩
      · intro k hk0 hk hsize
        have hal : ¬ ((size = 4 ∧ virtAddr % 4 ≠ 0) ∨ (size = 2 ∧ virtAddr % 2 ≠ 0)) := by
          simpa [misaligned] using h1
        subst hpa
        unfold InFrame pageSize unsigned at *
        push_cast
        omega

theorem findEntry_raised {m m' : Machine} {vpn : ℕ} {e : ExceptionType}
    (h : m.findEntry vpn = .raised e m') : m' = m := by
  unfold findEntry at h
  split at h
  · split_ifs at h
    · cases h
      rfl
    · split at h
      · cases h
      · split_ifs at h
        cases h
        rfl
  · split at h
    · cases h
      rfl
    · split at h <;> cases h

/-- An exception leaves the machine to `RaiseException` as it was. -/
theorem translate_raised {m m' : Machine} {virtAddr size : Int} {writing : Bool}
    {e : ExceptionType} (h : m.translate virtAddr size writing = .raised e m') : m' = m := by
  unfold translate at h
  split_ifs at h
  · cases h
    rfl
  · dsimp only at h
    split at h
    · next he =>
      cases h
      exact findEntry_raised he
    · cases h
    · split_ifs at h <;> cases h <;> rfl

/-- A bus error comes from a frame number outside the physical memory. -/
theorem translate_ne_busError {m m' : Machine} {virtAddr size : Int} {writing : Bool}
    {e : ExceptionType} (htlb : m.tlb = none)
    (hf : ∀ f ∈ m.frames, unsigned f < numPhysPages)
    (h : m.translate virtAddr size writing = .raised e m') : e ≠ .busErrorException := by
  cases ht : m.pageTable with
  | none =>
    simp only [translate, htlb, ht, Option.isNone_none, if_true] at h
    split_ifs at h
    injection h with h _
    simp [← h]
  | some t =>
    rw [translate_eq htlb ht] at h
    split_ifs at h with h1 h2
    · injection h with h _
      simp [← h]
    · injection h with h _
      simp [← h]
    · split at h
      · cases h
      · next entry he =>
        have hmem : entry.physicalPage ∈ m.frames := by
          simp only [frames, ht, Option.getD_some, List.mem_map]
          refine ⟨entry, List.mem_of_getElem? (i := unsigned virtAddr / pageSize) ?_, rfl⟩
          rw [List.getElem?_take, if_pos (by omega), he]
        have hlt := hf _ hmem
        dsimp only at h
        split_ifs at h with h3 h4 h5
        · injection h with h _
          simp [← h]
        · injection h with h _
          simp [← h]
        · omega

theorem translate_seen_congr {m₁ m₂ : Machine} (htlb₁ : m₁.tlb = none) (htlb₂ : m₂.tlb = none)
    (hpt : m₁.pageTable = m₂.pageTable) (hsz : m₁.pageTableSize = m₂.pageTableSize)
    (virtAddr size : Int) (writing : Bool) :
    (m₁.translate virtAddr size writing).seen = (m₂.translate virtAddr size writing).seen := by
  cases ht : m₂.pageTable with
  | none =>
    simp only [translate, htlb₁, htlb₂, hpt, ht, Option.isNone_none, if_true]
    split_ifs <;> rfl
  | some t =>
    rw [translate_eq htlb₁ (hpt.trans ht), translate_eq htlb₂ ht, hsz]
    split_ifs
    · rfl
    · rfl
    · split
      · rfl
      · dsimp only
        split_ifs <;> rfl

theorem load_congr {mem₁ mem₂ : Memory} {pa size : Int}
    (h : ∀ k, 0 ≤ k → k < size → (size = 1 ∨ size = 2 ∨ size = 4) →
      mem₁ (pa + k) = mem₂ (pa + k)) :
    load mem₁ pa size = load mem₂ pa size := by
  unfold load
  split_ifs with h1 h2 h4
  · subst h1
    have := h 0 (by omega) (by omega) (by omega)
    simpa using congrArg (fun b => some b.toBitVec.toInt) this
  · subst h2
    have e0 := h 0 (by omega) (by omega) (by omega)
    have e1 := h 1 (by omega) (by omega) (by omega)
    simp only [Nat.cast_zero, Nat.cast_one, e0, e1]
  · subst h4
    have e0 := h 0 (by omega) (by omega) (by omega)
    have e1 := h 1 (by omega) (by omega) (by omega)
    have e2 := h 2 (by omega) (by omega) (by omega)
    have e3 := h 3 (by omega) (by omega) (by omega)
    simp only [Nat.cast_zero, Nat.cast_one, Nat.cast_ofNat, e0, e1, e2, e3]
  · rfl

/-- What a read shows depends on the page table and on the bytes of its frames only. -/
theorem readMem_seen_congr {m₁ m₂ : Machine} (htlb₁ : m₁.tlb = none) (htlb₂ : m₂.tlb = none)
    (hpt : m₁.pageTable = m₂.pageTable) (hsz : m₁.pageTableSize = m₂.pageTableSize)
    (hmem : ∀ f ∈ m₁.frames, ∀ a, InFrame f a → m₁.mainMemory a = m₂.mainMemory a)
    (addr size : Int) : (m₁.readMem addr size).seen = (m₂.readMem addr size).seen := by
  have hseen := translate_seen_congr htlb₁ htlb₂ hpt hsz addr size false
  unfold readMem
  cases h₁ : m₁.translate addr size false <;> cases h₂ : m₂.translate addr size false <;>
    simp only [h₁, h₂, Outcome.seen, reduceCtorEq, Option.some.injEq, Sum.inr.injEq,
      Sum.inl.injEq] at hseen ⊢
  · next pa₁ n₁ pa₂ n₂ =>
    subst hseen
    obtain ⟨hm₁, -, f, hf, hin⟩ := translate_done htlb₁ h₁
    obtain ⟨hm₂, -⟩ := translate_done htlb₂ h₂
    have hl : load n₁.mainMemory pa₁ size = load n₂.mainMemory pa₁ size := by
      rw [hm₁, hm₂]
      exact load_congr fun k h0 hk hs => hmem f hf _ (hin k h0 hk hs)
    rw [hl]
    cases load n₂.mainMemory pa₁ size <;> rfl
  · exact hseen

/-- A write changes only bytes of frames of the page table in use, and changes none
when it raises an exception. -/
theorem writeMem_frame {m m' : Machine} (htlb : m.tlb = none) {addr size value a : Int}
    (ha : ∀ f ∈ m.frames, ¬ InFrame f a)
    (h : (m.writeMem addr size value).machine = some m') :
    m'.tlb = none ∧ m'.mainMemory a = m.mainMemory a := by
  unfold writeMem at h
  cases ht : m.translate addr size true with
  | abort => simp [ht, Outcome.machine] at h
  | raised e n =>
    simp only [ht, Outcome.machine, Option.some.injEq] at h
    rw [translate_raised ht] at h
    exact h ▸ ⟨htlb, rfl⟩
  | done pa n =>
    obtain ⟨hm, hn, f, hf, hin⟩ := translate_done htlb ht
    simp only [ht] at h
    cases hst : store n.mainMemory pa size value with
    | none => simp [hst, Outcome.machine] at h
    | some mem =>
      simp only [hst, Outcome.machine, Option.some.injEq] at h
      subst h
      refine ⟨hn, ?_⟩
      unfold store at hst
      split_ifs at hst with hsize
      cases hst
      dsimp only
      rw [if_neg, hm]
      rintro ⟨h1, h2⟩
      have := hin (a - pa) (by omega) (by omega) hsize
      rw [add_sub_cancel] at this
      exact ha f hf this

def Outcome.map {α : Type} (f : Machine → Machine) : Outcome α → Outcome α
  | .done a m => .done a (f m)
  | .raised e m => .raised e (f m)
  | .abort => .abort

def Outcome.bind {α β : Type} (r : Outcome α) (f : α → Machine → Outcome β) : Outcome β :=
  match r with
  | .done a m => f a m
  | .raised e m => .raised e m
  | .abort => .abort

theorem Outcome.map_bind {α β : Type} {f : Machine → Machine} {r : Outcome α}
    {k k' : α → Machine → Outcome β} (h : ∀ a m, r = .done a m → k' a (f m) = (k a m).map f) :
    (r.map f).bind k' = (r.bind k).map f := by
  cases r with
  | done a m => exact h a m rfl
  | raised e m => rfl
  | abort => rfl

theorem Outcome.bind_done {α β : Type} {r : Outcome α} {k : α → Machine → Outcome β} {b : β}
    {m' : Machine} (h : r.bind k = .done b m') : ∃ a m, r = .done a m ∧ k a m = .done b m' := by
  cases r with
  | done a m => exact ⟨a, m, rfl, h⟩
  | raised e m => cases h
  | abort => cases h

theorem Outcome.bind_raised {α β : Type} {r : Outcome α} {k : α → Machine → Outcome β}
    {e : ExceptionType} {m' : Machine} (h : r.bind k = .raised e m') :
    r = .raised e m' ∨ ∃ a m, r = .done a m ∧ k a m = .raised e m' := by
  cases r with
  | done a m => exact .inr ⟨a, m, rfl, h⟩
  | raised e₁ m =>
    cases h
    exact .inl rfl
  | abort => cases h

def onRegisters (g : (ℕ → Int) → ℕ → Int) (m : Machine) : Machine :=
  { m with registers := g m.registers }

section OnRegisters
variable (g : (ℕ → Int) → ℕ → Int) (m : Machine)

theorem findEntry_onRegisters (vpn : ℕ) :
    (m.onRegisters g).findEntry vpn =
      match m.findEntry vpn with
      | .done (entry, put) m' =>
        .done (entry, fun e => (put e).onRegisters g) (m'.onRegisters g)
      | .raised e m' => .raised e (m'.onRegisters g)
      | .abort => .abort := by
  obtain ⟨mem, regs, tlb, pageTable, n⟩ := m
  cases tlb with
  | none =>
    by_cases hn : n ≤ vpn
    · simp only [findEntry, onRegisters, hn, if_true]
    · simp only [findEntry, onRegisters, hn, if_false]
      cases pageTable.bind fun t => t[vpn]? with
      | none => rfl
      | some e => cases hv : e.valid <;> simp only [hv, if_true, Bool.false_eq_true, if_false]
  | some t =>
    simp only [findEntry, onRegisters]
    cases (t.take tlbSize).findIdx? fun e => e.valid && e.virtualPage == (vpn : Int) with
    | none => rfl
    | some i => cases hi : t[i]? <;> simp only [hi]

theorem translate_onRegisters (addr size : Int) (writing : Bool) :
    (m.onRegisters g).translate addr size writing =
      (m.translate addr size writing).map (onRegisters g) := by
  simp only [translate, findEntry_onRegisters, show (m.onRegisters g).tlb = m.tlb from rfl,
    show (m.onRegisters g).pageTable = m.pageTable from rfl]
  by_cases hal : misaligned addr size = true
  · simp only [hal, if_true, Outcome.map]
  by_cases htab : m.tlb.isNone = m.pageTable.isNone
  · simp only [hal, htab, if_true, Outcome.map, Bool.false_eq_true, if_false]
  simp only [hal, htab, Bool.false_eq_true, if_false]
  cases m.findEntry (unsigned addr / pageSize) with
  | done p m' =>
    dsimp only
    split_ifs <;> rfl
  | raised e m' => rfl
  | abort => rfl

variable {g m}
variable {m' : Machine} {addr size : Int} {writing : Bool} {e : ExceptionType}

theorem translate_registers {pa : Int} (h : m.translate addr size writing = .done pa m') :
    m'.registers = m.registers := by
  have hm := translate_onRegisters (fun _ => m.registers) m addr size writing
  rw [show m.onRegisters (fun _ => m.registers) = m from rfl, h] at hm
  injection hm with _ hm
  rw [hm]
  rfl

theorem readMem_registers {v : Int} (h : m.readMem addr size = .done v m') :
    m'.registers = m.registers := by
  unfold readMem at h
  split at h
  · cases h
  · cases h
  · next ht =>
    split at h
    · cases h
      exact translate_registers ht
    · cases h

theorem writeMem_registers {value : Int} (h : m.writeMem addr size value = .done () m') :
    m'.registers = m.registers := by
  unfold writeMem at h
  split at h
  · cases h
  · cases h
  · next ht =>
    split at h
    · cases h
      have hr := translate_registers ht
      exact hr
    · cases h

theorem readMem_raised (h : m.readMem addr size = .raised e m') :
    m' = m.raiseException addr := by
  unfold readMem at h
  split at h
  · next ht =>
    cases h
    rw [translate_raised ht]
  · cases h
  · split at h <;> cases h

theorem writeMem_raised {value : Int} (h : m.writeMem addr size value = .raised e m') :
    m' = m.raiseException addr := by
  unfold writeMem at h
  split at h
  · next ht =>
    cases h
    rw [translate_raised ht]
  · cases h
  · split at h <;> cases h

variable (m)

/-- Nor do reads and writes, up to what `RaiseException` makes of the registers. -/
theorem readMem_onRegisters (size : Int)
    (hg : ∀ m' : Machine, m'.registers = m.registers →
      (m'.onRegisters g).raiseException addr = (m'.raiseException addr).onRegisters g) :
    (m.onRegisters g).readMem addr size = (m.readMem addr size).map (onRegisters g) := by
  unfold readMem
  rw [translate_onRegisters]
  cases ht : m.translate addr size false with
  | done pa m' =>
    change (match load m'.mainMemory pa size with | some v => _ | none => _) = _
    cases hl : load m'.mainMemory pa size <;> simp only [hl, Outcome.map]
  | raised e m' =>
    exact congrArg (Outcome.raised e) (hg m' (congrArg registers (translate_raised ht)))
  | abort => rfl

theorem writeMem_onRegisters (size value : Int)
    (hg : ∀ m' : Machine, m'.registers = m.registers →
      (m'.onRegisters g).raiseException addr = (m'.raiseException addr).onRegisters g) :
    (m.onRegisters g).writeMem addr size value =
      (m.writeMem addr size value).map (onRegisters g) := by
  unfold writeMem
  rw [translate_onRegisters]
  cases ht : m.translate addr size true with
  | done pa m' =>
    change (match store m'.mainMemory pa size value with | some v => _ | none => _) = _
    cases hl : store m'.mainMemory pa size value <;> simp only [hl, Outcome.map, onRegisters]
  | raised e m' =>
    exact congrArg (Outcome.raised e) (hg m' (congrArg registers (translate_raised ht)))
  | abort => rfl

end OnRegisters

end Machine
end Nachos
