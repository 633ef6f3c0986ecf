import Nachos.Lib.Patch
import Nachos.Bitmap
import Nachos.Machine

namespace Nachos
open TwosComplement

structure Segment where
  virtualAddr : Int
  inFileAddr : Int
  size : Int
  deriving DecidableEq, Repr

structure NoffHeader where
  noffMagic : Int
  code : Segment
  initData : Segment
  readonlyData : Segment
  uninitData : Segment
  deriving DecidableEq, Repr

def NOFFMAGIC : Int := 0xbadfad
def userStackSize : ℕ := 1024

def int32At (bytes : ℕ → UInt8) (off : ℕ) : Int :=
  wrap ((bytes off).toNat + 256 * (bytes (off + 1)).toNat + 65536 * (bytes (off + 2)).toNat +
    16777216 * (bytes (off + 3)).toNat)

def segmentAt (bytes : ℕ → UInt8) (off : ℕ) : Segment :=
  ⟨int32At bytes off, int32At bytes (off + 4), int32At bytes (off + 8)⟩

def wordToHost (word : Int) : Int := word

def swapSegment (s : Segment) : Segment :=
  ⟨wordToHost s.virtualAddr, wordToHost s.inFileAddr, wordToHost s.size⟩

def swapHeader (h : NoffHeader) : NoffHeader :=
  ⟨wordToHost h.noffMagic, swapSegment h.code, swapSegment h.initData,
    swapSegment h.readonlyData, swapSegment h.uninitData⟩

/-- The header read from offset 0, and swapped where that gives the magic number.  A
file shorter than the header leaves the rest of the local struct as it was, `junk`. -/
def readHeader (file : List UInt8) (junk : ℕ → UInt8) : NoffHeader :=
  let bytes i := file.getD i (junk i)
  let h : NoffHeader := ⟨int32At bytes 0, segmentAt bytes 4, segmentAt bytes 16,
    segmentAt bytes 28, segmentAt bytes 40⟩
  if h.noffMagic ≠ NOFFMAGIC ∧ wordToHost h.noffMagic = NOFFMAGIC then swapHeader h else h

def NoffHeader.numPages (h : NoffHeader) : ℕ :=
  divRoundUp (unsigned (h.code.size + h.initData.size + h.uninitData.size + userStackSize)) pageSize

/-- The fields before the constructor assigns them are whatever `new` returned. -/
structure AddrSpace where
  pageTable : Option (List TranslationEntry)
  numPages : ℕ

structure Phys where
  gPhysPageBitMap : Bitmap
  mainMemory : Memory

def bzero (mem : Memory) (start n : Int) : Memory :=
  fun a => if start ≤ a ∧ a < start + n then 0 else mem a

def readWindow (file : List UInt8) (into numBytes position : Int) (a : Int) : Option UInt8 :=
  if into ≤ a ∧ a < into + numBytes then file[(position + (a - into)).toNat]? else none

/-- `OpenFile::ReadAt`; `Lseek` asserts that the position is not negative. -/
def readAt (file : List UInt8) (mem : Memory) (into numBytes position : Int) : Option Memory :=
  if position < 0 then none else some (Patch.apply (readWindow file into numBytes position) mem)

def allocPage (k : Phys) (i : ℕ) : TranslationEntry × Phys :=
  let r := k.gPhysPageBitMap.findAndSet
  (⟨i, r.2, true, false, false, false⟩,
    ⟨r.1, bzero k.mainMemory (wrap (r.2 * pageSize)) pageSize⟩)

def allocPages (k : Phys) (i : ℕ) : ℕ → List TranslationEntry × Phys
  | 0 => ([], k)
  | n + 1 =>
    let r := allocPage k i
    let rest := allocPages r.2 (i + 1) n
    (r.1 :: rest.1, rest.2)

/-- Where the copy of page `i` of a segment goes: the segment's virtual address is
added to the start of the frame. -/
def destination (seg : Segment) (frame : Int) : Int := wrap (seg.virtualAddr + frame * pageSize)

def position (seg : Segment) (i : ℕ) : Int := wrap (seg.inFileAddr + i * pageSize)

def loadPage (file : List UInt8) (seg : Segment) (frames : List Int) (mem : Memory) (i : ℕ) :
    Option Memory :=
  readAt file mem (destination seg (frames.getD i 0)) pageSize (position seg i)

def loadSegment (file : List UInt8) (seg : Segment) (frames : List Int) (numPages : ℕ)
    (mem : Memory) : Option Memory :=
  if seg.size > 0 then (List.range numPages).foldlM (loadPage file seg frames) mem else some mem

/-- From the test for free frames to the end of the critical section. -/
def AddrSpace.fill (raw : AddrSpace) (k : Phys) (file : List UInt8) (h : NoffHeader) :
    Option (AddrSpace × Phys) :=
  let numPages := h.numPages
  if numPages > numPhysPages then none
  else if numPages > k.gPhysPageBitMap.numClear then some ({ raw with numPages := 0 }, k)
  else do
    let r := allocPages k 0 numPages
    let frames := r.1.map TranslationEntry.physicalPage
    let mem ← loadSegment file h.code frames numPages r.2.mainMemory
    let mem ← loadSegment file h.initData frames numPages mem
    return ({ pageTable := some r.1, numPages }, { r.2 with mainMemory := mem })

/-- `AddrSpace(char *fileName)` as it is built with `RDATA`, where `executable` is what `Open`
returned.  `none` is an abort of the kernel: a failed assertion, or the use of a null pointer. -/
def AddrSpace.construct (raw : AddrSpace) (k : Phys) (executable : Option (List UInt8))
    (junk : ℕ → UInt8) : Option (AddrSpace × Phys) :=
  match executable with
  | none => none
  | some file =>
    let h := readHeader file junk
    if h.noffMagic = NOFFMAGIC then raw.fill k file h else none

def AddrSpace.frames (sp : AddrSpace) : List Int :=
  ((sp.pageTable.getD []).take sp.numPages).map TranslationEntry.physicalPage

def AddrSpace.destroy (sp : AddrSpace) (b : Bitmap) : Option Bitmap :=
  sp.frames.foldlM Bitmap.clear b

def AddrSpace.restoreState (sp : AddrSpace) (m : Machine) : Machine :=
  { m with pageTable := sp.pageTable, pageTableSize := sp.numPages }

theorem frames_restoreState (sp : AddrSpace) (m : Machine) :
    (sp.restoreState m).frames = sp.frames := rfl

/-- The frames that `n` calls of `FindAndSet` return, where that many bits are clear. -/
def Bitmap.freeFrames (b : Bitmap) (n : ℕ) : List Int := (b.freeList.take n).map Nat.cast

section Alloc
variable {k : Phys} {n : ℕ}

theorem freeFrames_succ {b : Bitmap} {f : ℕ} {l : List ℕ} (h : b.freeList = f :: l) :
    b.freeFrames (n + 1) = (f : Int) :: (b.markBit f).freeFrames n := by
  simp [Bitmap.freeFrames, Bitmap.freeList_markBit h, h]

theorem allocPage_of_freeList {f : ℕ} {l : List ℕ} (h : k.gPhysPageBitMap.freeList = f :: l)
    (i : ℕ) : allocPage k i = (⟨i, f, true, false, false, false⟩,
      ⟨k.gPhysPageBitMap.markBit f, bzero k.mainMemory (wrap (f * pageSize)) pageSize⟩) := by
  simp only [allocPage, Bitmap.findAndSet_of_freeList h]

theorem length_allocPages (k : Phys) (i n : ℕ) : (allocPages k i n).1.length = n := by
  induction n generalizing k i with
  | zero => rfl
  | succ n ih => simp [allocPages, ih]

theorem allocPages_bitmap (i : ℕ) (h : n ≤ k.gPhysPageBitMap.freeList.length) :
    (allocPages k i n).1.map TranslationEntry.physicalPage = k.gPhysPageBitMap.freeFrames n ∧
      (allocPages k i n).2.gPhysPageBitMap.freeList = k.gPhysPageBitMap.freeList.drop n ∧
      (allocPages k i n).2.gPhysPageBitMap.numBits = k.gPhysPageBitMap.numBits := by
  induction n generalizing k i with
  | zero => simp [allocPages, Bitmap.freeFrames]
  | succ n ih =>
    cases hl : k.gPhysPageBitMap.freeList with
    | nil => simp [hl] at h
    | cons f l =>
      have hmark := Bitmap.freeList_markBit hl
      have hrest := ih (k := (allocPage k i).2) (i + 1)
        (by simpa [allocPage_of_freeList hl, hmark, hl] using h)
      rw [allocPage_of_freeList hl] at hrest
      obtain ⟨h₁, h₂, h₃⟩ := hrest
      simp only [hmark] at h₂
      simp only [allocPages, allocPage_of_freeList hl, freeFrames_succ hl, List.map_cons,
        List.drop_succ_cons, h₁, h₂, h₃, Bitmap.numBits_markBit, and_self]

theorem bzero_frame {f : ℕ} (hf : f < 2 ^ 24) (mem : Memory) (a : Int) :
    bzero mem (wrap (f * pageSize)) pageSize a = if a / pageSize = f then 0 else mem a := by
  have hw : wrap ((f : Int) * pageSize) = f * pageSize := by
    unfold pageSize
    exact wrap_of_range (by omega) (by omega)
  have hiff : ((f : Int) * pageSize ≤ a ∧ a < f * pageSize + pageSize) ↔ a / pageSize = f := by
    unfold pageSize
    omega
  rw [hw]
  simp only [bzero, hiff]

theorem allocPages_mainMemory (i : ℕ) (h : n ≤ k.gPhysPageBitMap.freeList.length)
    (hbits : k.gPhysPageBitMap.numBits ≤ 2 ^ 24) (a : Int) :
    (allocPages k i n).2.mainMemory a =
      if a / pageSize ∈ k.gPhysPageBitMap.freeFrames n then 0 else k.mainMemory a := by
  induction n generalizing k i with
  | zero => simp [allocPages, Bitmap.freeFrames]
  | succ n ih =>
    cases hl : k.gPhysPageBitMap.freeList with
    | nil => simp [hl] at h
    | cons f l =>
      have hf : f < k.gPhysPageBitMap.numBits := (Bitmap.mem_freeList.mp (by simp [hl])).1
      have hmark := Bitmap.freeList_markBit hl
      have hrest := ih (k := (allocPage k i).2) (i + 1)
        (by simpa [allocPage_of_freeList hl, hmark, hl] using h)
        (by rwa [allocPage_of_freeList hl])
      rw [allocPage_of_freeList hl] at hrest
      simp only [bzero_frame (show f < 2 ^ 24 by omega)] at hrest
      simp only [allocPages, allocPage_of_freeList hl, hrest, freeFrames_succ hl, List.mem_cons]
      split_ifs <;> tauto

theorem allocPages_flags (k : Phys) (i n : ℕ) :
    ∀ e ∈ (allocPages k i n).1, e.valid = true ∧ e.readOnly = false := by
  induction n generalizing k i with
  | zero => simp [allocPages]
  | succ n ih =>
    simp only [allocPages, List.forall_mem_cons]
    exact ⟨⟨rfl, rfl⟩, ih _ _⟩

theorem frames_allocPages (k : Phys) (n : ℕ) :
    (⟨some (allocPages k 0 n).1, n⟩ : AddrSpace).frames =
      (allocPages k 0 n).1.map TranslationEntry.physicalPage := by
  rw [AddrSpace.frames, Option.getD_some, List.take_of_length_le (length_allocPages k 0 n).le]

theorem fill_of_room {raw : AddrSpace} {file : List UInt8} {h : NoffHeader}
    (hbig : h.numPages ≤ numPhysPages) (hroom : h.numPages ≤ k.gPhysPageBitMap.numClear) :
    raw.fill k file h =
      ((loadSegment file h.code (k.gPhysPageBitMap.freeFrames h.numPages) h.numPages
          (allocPages k 0 h.numPages).2.mainMemory).bind
        (loadSegment file h.initData (k.gPhysPageBitMap.freeFrames h.numPages) h.numPages)).map
      fun mem => (⟨some (allocPages k 0 h.numPages).1, h.numPages⟩,
        ⟨(allocPages k 0 h.numPages).2.gPhysPageBitMap, mem⟩) := by
  have hfr := (allocPages_bitmap (k := k) 0 (hroom.trans k.gPhysPageBitMap.length_freeList.ge)).1
  simp only [AddrSpace.fill, if_neg (not_lt.mpr hbig), if_neg (not_lt.mpr hroom), gt_iff_lt, hfr]
  cases loadSegment file h.code (k.gPhysPageBitMap.freeFrames h.numPages) h.numPages
      (allocPages k 0 h.numPages).2.mainMemory with
  | none => rfl
  | some mem =>
    simp only [Option.bind_some, bind]
    cases loadSegment file h.initData (k.gPhysPageBitMap.freeFrames h.numPages) h.numPages mem <;>
      rfl

end Alloc

end Nachos
