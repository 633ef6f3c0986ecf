import Nachos.Loader
import Nachos.ProcessStart

namespace Nachos
open TwosComplement

def Segment.stop (s : Segment) : Int := unsigned s.virtualAddr + s.size

/-- Each segment starts where the one before it ends, the first at `start`. -/
def Chained (start : Int) : List Segment → Prop
  | [] => True
  | s :: l => unsigned s.virtualAddr = start ∧ Chained s.stop l

namespace NoffHeader

def segments (h : NoffHeader) : List Segment := [h.code, h.initData, h.readonlyData, h.uninitData]

/-- The segments fill the virtual addresses from 0 on, in some order. -/
structure Tiles (h : NoffHeader) : Prop where
  size_nonneg : ∀ s ∈ h.segments, 0 ≤ s.size
  chained : ∃ l, l.Perm h.segments ∧ Chained 0 l

def sizeSum (h : NoffHeader) : Int :=
  h.code.size + h.initData.size + h.uninitData.size + userStackSize

end NoffHeader

theorem chained_stop_le {start : Int} {l : List Segment} (hl : Chained start l)
    (hsize : ∀ s ∈ l, 0 ≤ s.size) {s : Segment} (hs : s ∈ l) :
    s.stop ≤ start + (l.map Segment.size).sum := by
  induction l generalizing start with
  | nil => cases hs
  | cons t l ih =>
    obtain ⟨hstart, hrest⟩ := hl
    simp only [List.forall_mem_cons] at hsize
    have hsum : 0 ≤ (l.map Segment.size).sum := by
      apply List.sum_nonneg
      simpa using hsize.2
    have hstop : t.stop = start + t.size := by rw [Segment.stop, hstart]
    rw [List.map_cons, List.sum_cons]
    rcases List.mem_cons.mp hs with rfl | hmem
    · omega
    · have := ih hrest hsize.2 hmem
      omega

theorem exists_stop_eq {start : Int} {l : List Segment} (hl : Chained start l) (hne : l ≠ []) :
    ∃ s ∈ l, s.stop = start + (l.map Segment.size).sum := by
  induction l generalizing start with
  | nil => exact absurd rfl hne
  | cons t l ih =>
    obtain ⟨hstart, hrest⟩ := hl
    have hstop : t.stop = start + t.size := by rw [Segment.stop, hstart]
    rw [List.map_cons, List.sum_cons]
    by_cases hnil : l = []
    · subst hnil
      exact ⟨t, List.mem_cons_self, by simpa using hstop⟩
    · obtain ⟨s, hs, heq⟩ := ih hrest hnil
      exact ⟨s, List.mem_cons_of_mem t hs, by omega⟩

namespace NoffHeader
variable {h : NoffHeader}

theorem sum_sizes (h : NoffHeader) :
    (h.segments.map Segment.size).sum + userStackSize = h.sizeSum + h.readonlyData.size := by
  simp only [segments, sizeSum, List.map_cons, List.map_nil, List.sum_cons, List.sum_nil]
  ring

/-- All segments end by `limit` exactly if their sizes add up to no more. -/
theorem Tiles.stop_le_iff (ht : h.Tiles) (limit : Int) :
    (∀ s ∈ h.segments, s.stop ≤ limit) ↔ (h.segments.map Segment.size).sum ≤ limit := by
  obtain ⟨hsize, l, hperm, hl⟩ := ht
  have hsum : (l.map Segment.size).sum = (h.segments.map Segment.size).sum :=
    (hperm.map _).sum_eq
  rw [← hsum]
  constructor
  · intro hall
    have hne : l ≠ [] := by
      rintro rfl
      simpa [segments] using hperm.length_eq
    obtain ⟨s, hs, heq⟩ := exists_stop_eq hl hne
    have := hall s (hperm.mem_iff.mp hs)
    omega
  · intro hle s hs
    have := chained_stop_le hl (fun t ht => hsize t (hperm.mem_iff.mp ht)) (hperm.mem_iff.mpr hs)
    omega

end NoffHeader

def AddrSpace.stackBase (sp : AddrSpace) : Int := sp.numPages * pageSize - userStackSize

/-- No segment reaches into the stack, from its base to the stack pointer at the start of the
program. -/
structure RoomForStack (sp : AddrSpace) (h : NoffHeader) : Prop where
  below : ∀ s ∈ h.segments, s.stop ≤ sp.stackBase
  apart : ∀ (m : Machine) (a : Int), sp.stackBase ≤ a →
    a < (sp.initRegisters m).registers stackReg →
    ∀ s ∈ h.segments, ¬(unsigned s.virtualAddr ≤ a ∧ a < s.stop)

theorem roomForStack_iff {sp : AddrSpace} {h : NoffHeader} (ht : h.Tiles) :
    RoomForStack sp h ↔ h.sizeSum + h.readonlyData.size ≤ sp.numPages * pageSize := by
  have hsum := h.sum_sizes
  have hiff := ht.stop_le_iff sp.stackBase
  have hbase : (h.segments.map Segment.size).sum ≤ sp.stackBase ↔
      h.sizeSum + h.readonlyData.size ≤ sp.numPages * pageSize := by
    unfold AddrSpace.stackBase
    omega
  rw [← hbase, ← hiff]
  constructor
  · exact RoomForStack.below
  · intro hall
    refine ⟨hall, fun m a ha _ s hs hin => ?_⟩
    have := hall s hs
    omega

theorem numPages_of_construct {raw sp : AddrSpace} {k k' : Phys} {file : List UInt8}
    {junk : ℕ → UInt8} (hfree : (readHeader file junk).numPages ≤ k.gPhysPageBitMap.numClear)
    (hsp : raw.construct k (some file) junk = some (sp, k')) :
    sp.numPages = (readHeader file junk).numPages ∧
      (readHeader file junk).numPages ≤ numPhysPages := by
  unfold AddrSpace.construct at hsp
  dsimp only at hsp
  split_ifs at hsp
  by_cases hbig : (readHeader file junk).numPages ≤ numPhysPages
  · rw [fill_of_room hbig hfree] at hsp
    obtain ⟨mem, -, heq⟩ := Option.map_eq_some_iff.mp hsp
    exact ⟨congrArg (fun r => r.1.numPages) heq.symm, hbig⟩
  · rw [AddrSpace.fill, if_pos (not_le.mp hbig)] at hsp
    cases hsp

/-- A program without gaps leaves room for the stack exactly if the sizes that are added up do not
wrap and the read-only data fits into what rounding up to whole pages leaves. -/
theorem room_for_stack_iff {raw sp : AddrSpace} {k k' : Phys} {file : List UInt8}
    {junk : ℕ → UInt8} (ht : (readHeader file junk).Tiles)
    (hfree : (readHeader file junk).numPages ≤ k.gPhysPageBitMap.numClear)
    (hsp : raw.construct k (some file) junk = some (sp, k')) :
    RoomForStack sp (readHeader file junk) ↔
      (readHeader file junk).sizeSum < 2 ^ 32 ∧
      (readHeader file junk).sizeSum + (readHeader file junk).readonlyData.size ≤
        divRoundUp (readHeader file junk).sizeSum.toNat pageSize * pageSize := by
  obtain ⟨hpages, hle⟩ := numPages_of_construct hfree hsp
  rw [roomForStack_iff ht, hpages]
  have hnonneg := ht.size_nonneg
  simp only [NoffHeader.segments, List.forall_mem_cons] at hnonneg
  obtain ⟨hcode, hinit, hro, huninit, -⟩ := hnonneg
  have hsum : 0 ≤ (readHeader file junk).sizeSum := by
    unfold NoffHeader.sizeSum userStackSize
    omega
  have heq : (readHeader file junk).numPages =
      divRoundUp (unsigned (readHeader file junk).sizeSum) pageSize := rfl
  generalize (readHeader file junk).sizeSum = size at *
  generalize (readHeader file junk).readonlyData.size = ro at *
  constructor
  · intro hroom
    -- a sum that wraps leaves fewer pages than the segments need
    have hlt : size < 2 ^ 32 := by
      unfold numPhysPages at hle
      unfold pageSize at hroom
      omega
    have hunsigned : unsigned size = size.toNat := by
      unfold unsigned
      omega
    rw [heq, hunsigned] at hroom
    exact ⟨hlt, hroom⟩
  · rintro ⟨hlt, hroom⟩
    have hunsigned : unsigned size = size.toNat := by
      unfold unsigned
      omega
    rwa [heq, hunsigned]

theorem tiles_splitHeader : splitHeader.Tiles where
  size_nonneg := by decide
  chained := ⟨[splitHeader.readonlyData, splitHeader.uninitData, splitHeader.code,
    splitHeader.initData], by decide, by simp [Chained, Segment.stop, splitHeader, unsigned]⟩

/-- A program without read-only data, in an empty memory. -/
theorem room_for_stack_split : ∃ sp k',
    (⟨none, 0⟩ : AddrSpace).construct ⟨Bitmap.new 512, fun _ => 0⟩ (some splitProgram)
      (fun _ => 0) = some (sp, k') ∧
    RoomForStack sp (readHeader splitProgram fun _ => 0) := by
  obtain ⟨sp, k', hsp⟩ := construct_split loadable_split_new
  refine ⟨sp, k', hsp, (room_for_stack_iff ?_ ?_ hsp).mpr ?_⟩
  · exact readHeader_splitProgram ▸ tiles_splitHeader
  · rw [readHeader_splitProgram]
    dsimp only
    exact loadable_split_new.room
  · rw [readHeader_splitProgram]
    decide

/-- A page of code and a page of read-only data behind it. -/
def rdataProgram : List UInt8 :=
  [0xad, 0xdf, 0xba, 0, 0, 0, 0, 0, 52, 0, 0, 0, 128, 0, 0, 0, 0, 1, 0, 0] ++
    List.replicate 8 0 ++ [128, 0, 0, 0, 180, 0, 0, 0, 128, 0, 0, 0, 0, 1, 0, 0] ++
    List.replicate 8 0 ++ List.replicate 128 0x11 ++ List.replicate 128 0xda

def rdataHeader : NoffHeader :=
  ⟨NOFFMAGIC, ⟨0, 52, 128⟩, ⟨256, 0, 0⟩, ⟨128, 180, 128⟩, ⟨256, 0, 0⟩⟩

theorem readHeader_rdataProgram : readHeader rdataProgram (fun _ => 0) = rdataHeader := by
  decide +kernel

theorem tiles_rdataHeader : rdataHeader.Tiles where
  size_nonneg := by decide
  chained := ⟨[rdataHeader.code, rdataHeader.readonlyData, rdataHeader.initData,
    rdataHeader.uninitData], by decide, by simp [Chained, Segment.stop, rdataHeader, unsigned]⟩

theorem loadable_rdataHeader : Loadable (Bitmap.new 512) rdataHeader where
  numBits := Bitmap.numBits_new _
  magic := rfl
  fits := by decide
  room := by
    rw [Bitmap.numClear_new]
    decide
  inside := by
    have : rdataHeader.numPages = 9 := by decide
    intro seg hseg hsize
    simp only [NoffHeader.copied, rdataHeader, List.mem_cons, List.not_mem_nil, or_false] at hseg
    rcases hseg with rfl | rfl <;> simp [this, pageSize]

theorem readable_rdataHeader : rdataHeader.Readable := by
  unfold NoffHeader.Readable
  decide

/-- The program gets nine pages, eight of them for the stack, and its read-only data is in the
second. -/
theorem rdata_in_stack : (readHeader rdataProgram fun _ => 0).Tiles ∧
    (readHeader rdataProgram fun _ => 0).numPages ≤ (Bitmap.new 512).numClear ∧ ∃ sp k',
    (⟨none, 0⟩ : AddrSpace).construct ⟨Bitmap.new 512, fun _ => 0⟩ (some rdataProgram)
      (fun _ => 0) = some (sp, k') ∧
    ¬RoomForStack sp (readHeader rdataProgram fun _ => 0) := by
  have hfree : (readHeader rdataProgram fun _ => 0).numPages ≤ (Bitmap.new 512).numClear := by
    rw [readHeader_rdataProgram]
    exact loadable_rdataHeader.room
  obtain ⟨sp, k', hsp⟩ := exists_construct readHeader_rdataProgram loadable_rdataHeader
    readable_rdataHeader fun _ => 0
  refine ⟨readHeader_rdataProgram ▸ tiles_rdataHeader, hfree, sp, k', hsp, ?_⟩
  obtain ⟨-, rfl, -⟩ := construct_cases readHeader_rdataProgram loadable_rdataHeader hsp
  rw [readHeader_rdataProgram, roomForStack_iff tiles_rdataHeader]
  dsimp only
  decide

end Nachos
