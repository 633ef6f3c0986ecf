import Mathlib.Data.List.GetD
import Nachos.AddrSpace
import Nachos.BadPointer
import Nachos.Lib.Buffers
import Nachos.Lib.Paging

namespace Nachos
open TwosComplement Buffers

inductive Width where
  | byte | half | word
  deriving DecidableEq, Repr

def Width.size : Width → ℕ
  | .byte => 1
  | .half => 2
  | .word => 4

theorem Width.size_cases (w : Width) :
    (w.size : Int) = 1 ∨ (w.size : Int) = 2 ∨ (w.size : Int) = 4 := by
  cases w <;> decide

namespace Machine
variable {m m' : Machine} {addr : Int} {w : Width} {writing : Bool}

def frame (m : Machine) (page : ℕ) : ℕ := unsigned (m.frames.getD page 0)

def physAddr (m : Machine) (a : ℕ) : ℕ := Paging.phys pageSize m.frame a

/-- The byte at a virtual address. -/
def virtualByte (m : Machine) (a : ℕ) : UInt8 := m.mainMemory (m.physAddr a)

def spaceSize (m : Machine) : ℕ := m.pageTableSize * pageSize

/-- A page table without a hole, in frames of the memory that are all different. -/
structure Paged (m : Machine) : Prop where
  tlb : m.tlb = none
  table : ∃ t, m.pageTable = some t ∧ t.length = m.pageTableSize ∧
    ∀ e ∈ t, e.valid = true ∧ e.readOnly = false
  inMemory : ∀ f ∈ m.frames, 0 ≤ f ∧ f < numPhysPages
  distinct : m.frames.Nodup

/-- An aligned access inside the space. -/
def InSpace (n : ℕ) (addr : Int) (w : Width) : Prop :=
  unsigned addr % w.size = 0 ∧ unsigned addr < n

instance (n : ℕ) (addr : Int) (w : Width) : Decidable (InSpace n addr w) :=
  inferInstanceAs (Decidable (_ ∧ _))

theorem InSpace.add_lt {p : ℕ} (h : InSpace (p * pageSize) addr w) {i : ℕ} (hi : i < w.size) :
    unsigned addr + i < p * pageSize := by
  obtain ⟨hal, hlt⟩ := h
  unfold pageSize at hlt ⊢
  cases w <;> simp only [Width.size] at hal hi <;> omega

theorem frames_eq_layout (m : Machine) :
    m.frames = ((m.layout.2.1.getD []).take m.layout.2.2).map Prod.fst := by
  cases ht : m.pageTable with
  | none => simp [frames, layout, ht]
  | some t =>
    simp only [frames, layout, ht, Option.getD_some, Option.map_some, List.map_take, List.map_map]
    rfl

theorem frames_of_layout (h : m'.layout = m.layout) : m'.frames = m.frames := by
  rw [frames_eq_layout, frames_eq_layout, h]

theorem spaceSize_of_layout (h : m'.layout = m.layout) : m'.spaceSize = m.spaceSize := by
  have hsize : m'.pageTableSize = m.pageTableSize := congrArg (·.2.2) h
  rw [spaceSize, spaceSize, hsize]

theorem physAddr_of_layout (h : m'.layout = m.layout) : m'.physAddr = m.physAddr := by
  funext a
  unfold physAddr frame
  rw [frames_of_layout h]

theorem virtualByte_of_image (h : m'.image = m.image) : m'.virtualByte = m.virtualByte := by
  funext a
  have hmem : m'.mainMemory = m.mainMemory := congrArg Prod.snd h
  rw [virtualByte, virtualByte, physAddr_of_layout (congrArg Prod.fst h), hmem]

theorem Paged.of_layout (hp : m.Paged) (h : m'.layout = m.layout) : m'.Paged := by
  obtain ⟨htlb, ⟨t, ht, hlen, hflags⟩, hmem, hnodup⟩ := hp
  have htable : m'.pageTable.map (List.map TranslationEntry.core) =
      some (t.map TranslationEntry.core) := by
    have := congrArg (·.2.1) h
    simpa only [layout, ht, Option.map_some] using this
  have hsize : m'.pageTableSize = m.pageTableSize := congrArg (·.2.2) h
  obtain ⟨t', ht', hcore⟩ := Option.map_eq_some_iff.mp htable
  refine ⟨tlb_of_layout htlb h, ⟨t', ht', ?_, ?_⟩, ?_, ?_⟩
  · have := congrArg List.length hcore
    rw [List.length_map, List.length_map] at this
    omega
  · intro e' he'
    have hmap : e'.core ∈ t.map TranslationEntry.core := hcore ▸ List.mem_map_of_mem he'
    obtain ⟨e, he, heq⟩ := List.mem_map.mp hmap
    simp only [TranslationEntry.core, Prod.mk.injEq] at heq
    rw [← heq.2.1, ← heq.2.2]
    exact hflags e he
  · rw [frames_of_layout h]
    exact hmem
  · rw [frames_of_layout h]
    exact hnodup

theorem misaligned_eq_false (h : unsigned addr % w.size = 0) : misaligned addr w.size = false := by
  unfold unsigned at h
  cases w <;> simp [misaligned, Width.size] at h ⊢ <;> omega

theorem misaligned_eq_true (h : unsigned addr % w.size ≠ 0) : misaligned addr w.size = true := by
  unfold unsigned at h
  cases w <;> simp [misaligned, Width.size] at h ⊢ <;> omega

theorem offset_add_size_le {a : ℕ} (h : a % w.size = 0) : a % pageSize + w.size ≤ pageSize := by
  unfold pageSize
  cases w <;> simp only [Width.size] at h ⊢ <;> omega

theorem physAddr_add {a i : ℕ} (h : a % w.size = 0) (hi : i < w.size) :
    m.physAddr (a + i) = m.physAddr a + i := by
  have hend := offset_add_size_le h
  exact Paging.phys_add (by omega)

theorem physAddr_add_le {a : ℕ} (h : a % w.size = 0)
    (hframe : m.frame (a / pageSize) < numPhysPages) : m.physAddr a + w.size ≤ memorySize := by
  have hend := offset_add_size_le h
  have hle := Nat.mul_le_mul_right pageSize hframe
  rw [Nat.succ_mul] at hle
  unfold physAddr Paging.phys memorySize
  omega

section Paged
variable (hp : m.Paged)
include hp

theorem Paged.length_frames : m.frames.length = m.pageTableSize := by
  obtain ⟨t, ht, hlen, -⟩ := hp.table
  simp [frames, ht, hlen]

theorem Paged.frame_lt {p : ℕ} (hpage : p < m.pageTableSize) : m.frame p < numPhysPages := by
  have hlt : p < m.frames.length := by rw [hp.length_frames]; exact hpage
  have hin := hp.inMemory _ (List.getElem_mem hlt)
  rw [frame, List.getD_eq_getElem _ _ hlt]
  unfold unsigned
  unfold numPhysPages at hin ⊢
  omega

theorem Paged.frame_injOn : Set.InjOn m.frame {p | p < m.pageTableSize} := by
  intro p hpage q hq h
  simp only [Set.mem_ofPred_eq, ← hp.length_frames] at hpage hq
  rw [frame, frame, List.getD_eq_getElem _ _ hpage, List.getD_eq_getElem _ _ hq] at h
  have h₁ := hp.inMemory _ (List.getElem_mem hpage)
  have h₂ := hp.inMemory _ (List.getElem_mem hq)
  have heq : m.frames[p] = m.frames[q] := by
    unfold numPhysPages at h₁ h₂
    unfold unsigned at h
    omega
  exact hp.distinct.getElem_inj_iff.mp heq

theorem Paged.entry {t : List TranslationEntry} (ht : m.pageTable = some t) {p : ℕ}
    (hpage : p < m.pageTableSize) :
    ∃ e, t[p]? = some e ∧ e.valid = true ∧ e.readOnly = false ∧
      m.frame p = unsigned e.physicalPage := by
  obtain ⟨t', ht', hlen, hflags⟩ := hp.table
  cases ht.symm.trans ht'
  have hlt : p < t.length := by omega
  obtain ⟨hvalid, hro⟩ := hflags _ (List.getElem_mem hlt)
  refine ⟨t[p], List.getElem?_eq_getElem hlt, hvalid, hro, ?_⟩
  have hlt' : p < (t.map TranslationEntry.physicalPage).length := by rw [List.length_map]; exact hlt
  rw [frame, frames, ht, Option.getD_some, List.take_of_length_le hlen.le,
    List.getD_eq_getElem _ _ hlt', List.getElem_map]

theorem Paged.translate_inSpace (h : InSpace m.spaceSize addr w) (writing : Bool) :
    ∃ m', m.translate addr w.size writing = .done (m.physAddr (unsigned addr)) m' ∧
      m'.image = m.image := by
  obtain ⟨t, ht, -, -⟩ := hp.table
  obtain ⟨hal, hlt⟩ := h
  have hpage : unsigned addr / pageSize < m.pageTableSize := by
    apply Nat.div_lt_of_lt_mul
    rw [Nat.mul_comm]
    exact hlt
  obtain ⟨e, he, hvalid, hro, hframe⟩ := hp.entry ht hpage
  have hbound : (m.physAddr (unsigned addr) : Int) + w.size ≤ memorySize := by
    have hend := physAddr_add_le hal (hp.frame_lt hpage)
    exact_mod_cast hend
  have htr := translate_eq hp.tlb ht addr w.size writing
  rw [if_neg (by rw [misaligned_eq_false hal]; decide), if_neg (not_le.mpr hpage), he] at htr
  dsimp only at htr
  rw [if_neg (by rw [hvalid]; decide), if_neg (by rw [hro]; simp),
    if_neg (not_le.mpr (hframe ▸ hp.frame_lt hpage)), ← hframe] at htr
  exact ⟨_, htr.trans (if_pos hbound), translate_image (htr.trans (if_pos hbound))⟩

theorem Paged.translate_outside (h : ¬InSpace m.spaceSize addr w) (writing : Bool) :
    m.translate addr w.size writing = .raised .addressErrorException m := by
  obtain ⟨t, ht, -, -⟩ := hp.table
  rw [translate_eq hp.tlb ht]
  by_cases hal : unsigned addr % w.size = 0
  · have hle : m.spaceSize ≤ unsigned addr := by
      by_contra hlt
      exact h ⟨hal, not_le.mp hlt⟩
    have hpage : m.pageTableSize ≤ unsigned addr / pageSize := by
      rw [Nat.le_div_iff_mul_le (by decide)]
      exact hle
    rw [if_neg (by rw [misaligned_eq_false hal]; decide), if_pos hpage]
  · rw [if_pos (misaligned_eq_true hal)]

end Paged

theorem load_littleEndian (mem : Memory) (pa : ℕ) (w : Width) :
    ∃ v, load mem pa w.size = some v ∧
      unsigned v % 256 ^ w.size = littleEndian (fun i => mem (pa + i : ℕ)) w.size := by
  cases w with
  | byte =>
    refine ⟨_, rfl, ?_⟩
    have hb := (mem pa).toNat_lt
    simp only [Width.size, littleEndian, Finset.sum_range_one, pow_zero, pow_one, mul_one,
      BitVec.toInt_eq_toNat_cond, UInt8.toNat_toBitVec, unsigned, add_zero]
    split_ifs <;> omega
  | half =>
    refine ⟨_, rfl, ?_⟩
    have h0 := (mem pa).toNat_lt
    have h1 := (mem (pa + 1 : ℕ)).toNat_lt
    simp only [Width.size, littleEndian, Finset.sum_range_succ, Finset.sum_range_zero, unsigned,
      add_zero, Nat.cast_zero, Nat.cast_add] at h1 ⊢
    omega
  | word =>
    refine ⟨_, rfl, ?_⟩
    have h0 := (mem pa).toNat_lt
    have h1 := (mem (pa + 1 : ℕ)).toNat_lt
    have h2 := (mem (pa + 2 : ℕ)).toNat_lt
    have h3 := (mem (pa + 3 : ℕ)).toNat_lt
    simp only [Width.size, littleEndian, Finset.sum_range_succ, Finset.sum_range_zero, unsigned,
      wrap, add_zero, Nat.cast_zero, Nat.cast_add] at h1 h2 h3 ⊢
    omega

section Access
variable (hp : m.Paged)
include hp

theorem Paged.readMem_inSpace (h : InSpace m.spaceSize addr w) :
    ∃ v m', m.readMem addr w.size = .done v m' ∧ m'.image = m.image ∧
      load m.mainMemory (m.physAddr (unsigned addr)) w.size = some v ∧
      unsigned v % 256 ^ w.size = littleEndian (shift m.virtualByte (unsigned addr)) w.size := by
  obtain ⟨m', ht, himage⟩ := hp.translate_inSpace h false
  obtain ⟨v, hload, hv⟩ := load_littleEndian m.mainMemory (m.physAddr (unsigned addr)) w
  have hmem : m'.mainMemory = m.mainMemory := congrArg Prod.snd himage
  refine ⟨v, m', ?_, himage, hload, ?_⟩
  · simp only [readMem, ht, hmem, hload]
  · rw [hv]
    apply Finset.sum_congr rfl
    intro i hi
    rw [shift, virtualByte, physAddr_add h.1 (Finset.mem_range.mp hi)]

theorem Paged.readMem_outside (h : ¬InSpace m.spaceSize addr w) :
    m.readMem addr w.size = .raised .addressErrorException (m.raiseException addr) := by
  rw [readMem, hp.translate_outside h]

/-- An access covers the physical address of a virtual byte only where it covers the byte. -/
theorem Paged.physAddr_mem_iff (h : InSpace m.spaceSize addr w) {a : ℕ} (ha : a < m.spaceSize) :
    m.physAddr (unsigned addr) ≤ m.physAddr a ∧
        m.physAddr a < m.physAddr (unsigned addr) + w.size ↔
      unsigned addr ≤ a ∧ a < unsigned addr + w.size := by
  have hpage : ∀ b < m.spaceSize, b / pageSize < m.pageTableSize := by
    intro b hb
    apply Nat.div_lt_of_lt_mul
    rw [Nat.mul_comm]
    exact hb
  exact Paging.phys_mem_iff hp.frame_injOn (hpage _ h.2) (hpage a ha) (offset_add_size_le h.1)

/-- A write replaces the bytes at its addresses and keeps all others. -/
theorem Paged.writeMem_inSpace (h : InSpace m.spaceSize addr w) (value : Int) :
    ∃ m', m.writeMem addr w.size value = .done () m' ∧ m'.layout = m.layout ∧
      ∀ a < m.spaceSize, m'.virtualByte a =
        bcopy (byteOf value) m.virtualByte (unsigned addr) w.size a := by
  obtain ⟨n, ht, himage⟩ := hp.translate_inSpace h true
  have hmem : n.mainMemory = m.mainMemory := congrArg Prod.snd himage
  have hlayout : n.layout = m.layout := congrArg Prod.fst himage
  let mem : Memory := fun a =>
    if (m.physAddr (unsigned addr) : Int) ≤ a ∧ a < m.physAddr (unsigned addr) + w.size then
      byteOf value (a - m.physAddr (unsigned addr)).toNat
    else m.mainMemory a
  have hstored : ({ n with mainMemory := mem } : Machine).layout = m.layout := hlayout
  refine ⟨{ n with mainMemory := mem }, ?_, hstored, ?_⟩
  · simp only [writeMem, ht, store, if_pos w.size_cases, hmem]
    rfl
  · intro a ha
    have hiff := hp.physAddr_mem_iff h ha
    rw [virtualByte, physAddr_of_layout hstored, bcopy]
    by_cases hin : unsigned addr ≤ a ∧ a < unsigned addr + w.size
    · obtain ⟨j, rfl⟩ := Nat.exists_eq_add_of_le hin.1
      rw [if_pos hin, Nat.add_sub_cancel_left, physAddr_add h.1 (by omega)]
      change (if _ then _ else _) = _
      rw [if_pos (by omega)]
      congr 1
      omega
    · rw [if_neg hin]
      have hout := (not_congr hiff).mpr hin
      exact if_neg (by omega)

theorem Paged.writeMem_outside (h : ¬InSpace m.spaceSize addr w) (value : Int) :
    m.writeMem addr w.size value = .raised .addressErrorException (m.raiseException addr) := by
  rw [writeMem, hp.translate_outside h]

end Access

theorem image_raiseException (m : Machine) (addr : Int) : (m.raiseException addr).image = m.image :=
  rfl

inductive Access where
  | read (addr : Int) (w : Width)
  | write (addr : Int) (w : Width) (value : Int)

/-- The machine after a call, whether or not the call has raised an exception. -/
def access (m : Machine) : Access → Option Machine
  | .read addr w => (m.readMem addr w.size).machine
  | .write addr w value => (m.writeMem addr w.size value).machine

def accesses (m : Machine) (calls : List Access) : Option Machine := calls.foldlM access m

/-- A memory of `n` bytes after a call: the bytes of the latest write stand at its addresses. -/
def Access.update (n : ℕ) (mem : Bytes) : Access → Bytes
  | .read _ _ => mem
  | .write addr w value =>
    if InSpace n addr w then bcopy (byteOf value) mem (unsigned addr) w.size else mem

/-- The machine `m` holds the bytes `mem`. -/
structure Holds (m : Machine) (n : ℕ) (mem : Bytes) : Prop where
  paged : m.Paged
  size : m.spaceSize = n
  bytes : ∀ a < n, m.virtualByte a = mem a

variable {n : ℕ} {mem : Bytes}

theorem Holds.of_image (hm : m.Holds n mem) (h : m'.image = m.image) : m'.Holds n mem := by
  have hlayout : m'.layout = m.layout := congrArg Prod.fst h
  refine ⟨hm.paged.of_layout hlayout, (spaceSize_of_layout hlayout).trans hm.size, ?_⟩
  rw [virtualByte_of_image h]
  exact hm.bytes

theorem Holds.access (hm : m.Holds n mem) (c : Access) :
    ∃ m', m.access c = some m' ∧ m'.Holds n (c.update n mem) := by
  obtain rfl := hm.size
  cases c with
  | read addr w =>
    by_cases h : InSpace m.spaceSize addr w
    · obtain ⟨v, m', hr, himage, -⟩ := hm.paged.readMem_inSpace h
      exact ⟨m', by rw [Machine.access, hr]; rfl, hm.of_image himage⟩
    · refine ⟨_, ?_, hm.of_image (image_raiseException m addr)⟩
      rw [Machine.access, hm.paged.readMem_outside h]
      rfl
  | write addr w value =>
    by_cases h : InSpace m.spaceSize addr w
    · obtain ⟨m', hr, hlayout, hbytes⟩ := hm.paged.writeMem_inSpace h value
      refine ⟨m', by rw [Machine.access, hr]; rfl, hm.paged.of_layout hlayout,
        spaceSize_of_layout hlayout, ?_⟩
      intro a ha
      rw [hbytes a ha, Access.update, if_pos h]
      unfold bcopy
      rw [hm.bytes a ha]
    · refine ⟨m.raiseException addr, ?_, ?_⟩
      · rw [Machine.access, hm.paged.writeMem_outside h]
        rfl
      · rw [Access.update, if_neg h]
        exact hm.of_image (image_raiseException m addr)

theorem Holds.accesses (hm : m.Holds n mem) (calls : List Access) :
    ∃ m', m.accesses calls = some m' ∧ m'.Holds n (calls.foldl (Access.update n) mem) := by
  induction calls generalizing m mem with
  | nil => exact ⟨m, rfl, hm⟩
  | cons c calls ih =>
    obtain ⟨m₁, hc, hm₁⟩ := hm.access c
    obtain ⟨m', hr, hm'⟩ := ih hm₁
    refine ⟨m', ?_, hm'⟩
    rw [Machine.accesses, List.foldlM_cons, hc]
    exact hr

/-- A read succeeds with the number at its address, or changes nothing but registers. -/
theorem Holds.readMem_cases (hm : m.Holds n mem) (addr : Int) (w : Width) :
    (InSpace n addr w ∧ ∃ v m', m.readMem addr w.size = .done v m' ∧
        unsigned v % 256 ^ w.size = littleEndian (shift mem (unsigned addr)) w.size) ∨
      ¬InSpace n addr w ∧
        m.readMem addr w.size = .raised .addressErrorException (m.raiseException addr) := by
  obtain rfl := hm.size
  by_cases h : InSpace m.spaceSize addr w
  · obtain ⟨v, m', hr, -, -, hv⟩ := hm.paged.readMem_inSpace h
    refine .inl ⟨h, v, m', hr, hv.trans ?_⟩
    apply Finset.sum_congr rfl
    intro i hi
    rw [shift, shift, hm.bytes _ (h.add_lt (Finset.mem_range.mp hi))]
  · exact .inr ⟨h, hm.paged.readMem_outside h⟩

theorem Holds.writeMem_cases (hm : m.Holds n mem) (addr : Int) (w : Width) (value : Int) :
    (InSpace n addr w ∧ ∃ m', m.writeMem addr w.size value = .done () m') ∨
      ¬InSpace n addr w ∧
        m.writeMem addr w.size value = .raised .addressErrorException (m.raiseException addr) := by
  obtain rfl := hm.size
  by_cases h : InSpace m.spaceSize addr w
  · obtain ⟨m', hr, -⟩ := hm.paged.writeMem_inSpace h value
    exact .inl ⟨h, m', hr⟩
  · exact .inr ⟨h, hm.paged.writeMem_outside h value⟩

end Machine

/-- The page table is one that the loop of the constructor has filled. -/
def AddrSpace.Built (sp : AddrSpace) : Prop :=
  ∃ k : Phys, sp.pageTable = some (allocPages k 0 sp.numPages).1

/-- The constructor fills a table, or gives the space no page for want of free frames. -/
theorem built_of_construct {raw sp : AddrSpace} {k k' : Phys} {executable : Option (List UInt8)}
    {junk : ℕ → UInt8} (h : raw.construct k executable junk = some (sp, k')) :
    sp.Built ∨ sp = { raw with numPages := 0 } ∧ k' = k := by
  unfold AddrSpace.construct at h
  split at h
  · cases h
  · dsimp only at h
    split_ifs at h
    unfold AddrSpace.fill at h
    dsimp only at h
    split_ifs at h
    · cases h
      exact .inr ⟨rfl, rfl⟩
    · obtain ⟨mem, -, h⟩ := Option.bind_eq_some_iff.mp h
      obtain ⟨mem', -, h⟩ := Option.bind_eq_some_iff.mp h
      cases h
      exact .inl ⟨k, rfl⟩

open Machine (Access InSpace)

theorem AddrSpace.Built.paged {sp : AddrSpace} (hsp : sp.Built)
    (hmem : ∀ f ∈ sp.frames, 0 ≤ f ∧ f < numPhysPages) (hdistinct : sp.frames.Nodup) {m : Machine}
    (htlb : m.tlb = none) : (sp.restoreState m).Paged := by
  obtain ⟨k, hk⟩ := hsp
  exact ⟨htlb, ⟨_, hk, length_allocPages .., allocPages_flags k 0 _⟩, hmem, hdistinct⟩

/-- After any sequence of accesses the next one succeeds where it is aligned and inside the
space, and a read gives what has been written last. -/
theorem memory_byte_addressed {sp : AddrSpace} (hsp : sp.Built)
    (hmem : ∀ f ∈ sp.frames, 0 ≤ f ∧ f < numPhysPages) (hdistinct : sp.frames.Nodup)
    {m₀ : Machine} (htlb : m₀.tlb = none) (calls : List Access) :
    ∃ m, (sp.restoreState m₀).accesses calls = some m ∧
      (∀ addr w,
        ((∃ v m', m.readMem addr w.size = .done v m') ↔ InSpace (sp.numPages * pageSize) addr w) ∧
        (∀ v m', m.readMem addr w.size = .done v m' → unsigned v % 256 ^ w.size =
          littleEndian (shift (calls.foldl (Access.update (sp.numPages * pageSize))
            (sp.restoreState m₀).virtualByte) (unsigned addr)) w.size) ∧
        (∀ e m', m.readMem addr w.size = .raised e m' → m'.mainMemory = m.mainMemory) ∧
        m.readMem addr w.size ≠ .abort) ∧
      ∀ addr w value,
        ((∃ m', m.writeMem addr w.size value = .done () m') ↔
          InSpace (sp.numPages * pageSize) addr w) ∧
        (∀ e m', m.writeMem addr w.size value = .raised e m' → m'.mainMemory = m.mainMemory) ∧
        m.writeMem addr w.size value ≠ .abort := by
  have hpaged := hsp.paged hmem hdistinct htlb
  have hstart : (sp.restoreState m₀).Holds (sp.numPages * pageSize)
      (sp.restoreState m₀).virtualByte := ⟨hpaged, rfl, fun _ _ => rfl⟩
  obtain ⟨m, hrun, hm⟩ := hstart.accesses calls
  refine ⟨m, hrun, fun addr w => ?_, fun addr w value => ?_⟩
  · rcases hm.readMem_cases addr w with ⟨hin, v, m', hr, hv⟩ | ⟨hout, hr⟩
    · simp [hr, hin, hv]
    · refine ⟨by simp [hr, hout], by simp [hr], ?_, by simp [hr]⟩
      intro e m' h
      cases hr.symm.trans h
      rfl
  · rcases hm.writeMem_cases addr w value with ⟨hin, m', hr⟩ | ⟨hout, hr⟩
    · simp [hr, hin]
    · refine ⟨by simp [hr, hout], ?_, by simp [hr]⟩
      intro e m' h
      cases hr.symm.trans h
      rfl

def twoPages : AddrSpace := ⟨some (allocPages ⟨.new numPhysPages, fun _ => 0⟩ 0 2).1, 2⟩

def twoPagesMachine : Machine := ⟨fun _ => 0, fun _ => 0, none, none, 0⟩

theorem frames_twoPages : twoPages.frames = [0, 1] := by decide +kernel

/-- A word, a byte over its third byte, and a write outside the space that does nothing. -/
theorem memory_byte_addressed_two_pages : ∃ m v m',
    (twoPages.restoreState twoPagesMachine).accesses
      [.write 124 .word 0x11223344, .write 126 .byte 0xAA, .write (-4) .word 7] = some m ∧
    m.readMem 124 4 = .done v m' ∧ unsigned v % 256 ^ 4 = 0x11AA3344 := by
  have hbuilt : twoPages.Built := ⟨_, rfl⟩
  have htlb : twoPagesMachine.tlb = none := rfl
  obtain ⟨m, hrun, hread, -⟩ := memory_byte_addressed hbuilt
    (by rw [frames_twoPages]; decide) (by rw [frames_twoPages]; decide) htlb
    [.write 124 .word 0x11223344, .write 126 .byte 0xAA, .write (-4) .word 7]
  obtain ⟨hiff, hvalue, -⟩ := hread 124 .word
  obtain ⟨v, m', hv⟩ := hiff.mpr (by decide)
  exact ⟨m, v, m', hrun, hv, (hvalue v m' hv).trans (by decide +kernel)⟩

end Nachos
