import Nachos.DiskConsistency

namespace Nachos.Filesys
open Buffers TwosComplement Programs

def maxFileSize : ℕ := numDirect * sectorSize

namespace FileHeader
variable {hdr : FileHeader} {freeMap : Bitmap} {size : BitVec 32}

/-- No access through the header leaves `dataSectors`. -/
structure InBounds (hdr : FileHeader) : Prop where
  numSectors_le : hdr.numSectors.toInt ≤ numDirect
  byteToSector : ∀ offset, 0 ≤ offset → offset < hdr.fileLength →
    hdr.byteToSector offset ≠ .error .undefined
  deallocate : ∀ freeMap, hdr.deallocate freeMap ≠ .error .undefined

theorem deallocateLoop_inBounds (hdr : FileHeader) {n i : ℕ} (hi : i + n ≤ numDirect)
    (freeMap : Bitmap) : hdr.deallocateLoop n i freeMap ≠ .error .undefined := by
  induction n generalizing i freeMap with
  | zero => exact fun h => by cases h
  | succ n ih =>
    have hi' : i < numDirect := by omega
    rw [deallocateLoop, dif_pos hi']
    dsimp only
    unfold PersistentBitmap.test
    split_ifs with hvalid
    · rw [except_ok_bind]
      split_ifs
      · unfold PersistentBitmap.clear
        split
        · exact ih (by omega) _
        · exact fun h => by cases h
      · exact fun h => by cases h
    · exact fun h => by cases h

theorem Fits.inBounds (h : hdr.Fits) : hdr.InBounds where
  numSectors_le := by
    have hcount := h.count_le
    unfold count at hcount
    omega
  byteToSector := by
    intro offset hnonneg hlt
    have hcount := h.count_le
    have hfits := h.fits
    have hdiv : 0 ≤ offset.tdiv sectorSize ∧ offset.tdiv sectorSize < numDirect := by
      rw [Int.tdiv_eq_ediv_of_nonneg hnonneg]
      unfold numDirect sectorSize at *
      omega
    unfold FileHeader.byteToSector
    dsimp only
    rw [dif_pos hdiv]
    exact fun h => by cases h
  deallocate freeMap := hdr.deallocateLoop_inBounds (by simpa using h.count_le) freeMap

theorem sectorsFor_le_iff (size : BitVec 32) :
    sectorsFor size ≤ numDirect ↔ size.toInt ≤ maxFileSize := by
  have hfits := fits_sectorsFor size
  have hdiv := Int.mul_tdiv_add_tmod size.toInt sectorSize
  have hlow := Int.lt_tmod_of_pos size.toInt (show (0 : Int) < sectorSize by decide)
  unfold sectorsFor divRoundUpInt maxFileSize numDirect at *
  unfold sectorSize at *
  split_ifs at * <;> omega

theorem allocateLoop_undefined {n i : ℕ} (hdr : FileHeader) {freeMap : Bitmap} {l : List ℕ}
    (hfree : freeMap.freeList = l) (hn : n ≤ l.length) (hi : i ≤ numDirect)
    (hover : numDirect < i + n) : allocateLoop n i hdr freeMap = .error .undefined := by
  induction n generalizing i hdr freeMap l with
  | zero => omega
  | succ n ih =>
    cases l with
    | nil => simp at hn
    | cons f l =>
      rw [allocateLoop, Bitmap.findAndSet_of_freeList hfree]
      dsimp only
      split_ifs with hi' hf
      · exact ih _ (Bitmap.freeList_markBit hfree) (by simpa using hn) (by omega) (by omega)
      · exact absurd (Int.natCast_nonneg f) hf
      · rfl

theorem allocate_undefined (hdr : FileHeader) (hroom : sectorsFor size ≤ freeMap.freeList.length)
    (hover : numDirect < sectorsFor size) : hdr.allocate freeMap size = .error .undefined := by
  rw [allocate_eq, if_neg (not_lt.mpr hroom),
    allocateLoop_undefined _ rfl hroom (Nat.zero_le _) (by omega)]
  rfl

end FileHeader

namespace FileSystem
variable {fs : FileSystem} {disk : Bytes}

def newHeader (fs : FileSystem) (disk : Bytes) (initialSize : BitVec 32) (junk : Junk) :
    Except Fault (Int × Bool × FileHeader × Bitmap) := do
  let (freeMap, sector) := (← PersistentBitmap.new fs.freeMapFile.hdr disk).findAndSet
  let r ← (FileHeader.ofBytes (junk 1)).allocate freeMap initialSize
  return (sector, r)

/-- The writes at the end of `Create` succeed wherever the header goes, and leave it there if the
sector is not one of the free map or the directory. -/
theorem store_allocated (hm : Mounted fs disk) {s : ℕ} (hs : s < numSectors) (d : Directory)
    {b b' : Bitmap} {size : BitVec 32} {junk : Junk} {hdr : FileHeader}
    (hbits : b'.numBits = numSectors)
    (h : (FileHeader.ofBytes (junk 1)).allocate b size = .ok (true, hdr, b')) :
    ∃ disk', fs.store disk d b s size junk = .ok (true, disk') ∧
      (s ∉ fs.freeMapFile.hdr.sectors → s ∉ fs.directoryFile.hdr.sectors →
        FileHeader.onDisk disk' s = hdr) := by
  obtain ⟨disk₁, hw₁, hhdr, -⟩ := hdr.writeBack_ok hs disk
  obtain ⟨disk₂, hw₂, -, hframe₂⟩ :=
    Directory.writeBack_ok hm.dirValid hm.dirLength disk₁ d (junk 2)
  obtain ⟨disk₃, hw₃, -, hframe₃⟩ :=
    PersistentBitmap.writeBack_ok hm.mapValid hm.mapLength disk₂ hbits (junk 3)
  refine ⟨disk₃, ?_, fun hmap hdir => ?_⟩
  · rw [store, h, except_ok_bind]
    dsimp only
    rw [if_pos rfl, hw₁, except_ok_bind, hw₂, except_ok_bind, hw₃]
    rfl
  · rw [onDisk_congr (hframe₃ s hmap), onDisk_congr (hframe₂ s hdir), hhdr]

/-- `Create` fails and leaves the disk as it is, or sets up a header of the given size that keeps
to its bounds. -/
def CreatesInBounds (fs : FileSystem) (disk name : Bytes) (size : BitVec 32) (junk : Junk) : Prop :=
  fs.create disk name size junk = .ok (false, disk) ∨
  ∃ (disk' : Bytes) (s : ℕ) (hdr : FileHeader) (b : Bitmap),
    fs.create disk name size junk = .ok (true, disk') ∧
    fs.newHeader disk size junk = .ok (s, true, hdr, b) ∧
    (s ∉ fs.freeMapFile.hdr.sectors → s ∉ fs.directoryFile.hdr.sectors →
      FileHeader.onDisk disk' s = hdr) ∧
    hdr.numBytes = size ∧ hdr.InBounds

theorem newHeader_eq (hm : Mounted fs disk) {s : ℕ} {l : List ℕ}
    (hfree : (freeMapOn disk).freeList = s :: l) (size : BitVec 32) (junk : Junk) :
    fs.newHeader disk size junk =
      ((FileHeader.ofBytes (junk 1)).allocate ((freeMapOn disk).markBit s) size).map
        fun r => ((s : Int), r) := by
  rw [newHeader, hm.readMap, except_ok_bind, Bitmap.findAndSet_of_freeList hfree]
  rfl

/-- Why `Create` refuses a file: its name is there, the directory is full, or too few sectors are
free for the header and the data. -/
def Refused (disk name : Bytes) (size : BitVec 32) : Prop :=
  (∃ j t, (directoryOn disk).entry j = some (t, Directory.key name)) ∨
  (∀ j < numDirEntries, (directoryOn disk).entry j ≠ none) ∨
  (freeMapOn disk).freeList.length < FileHeader.sectorsFor size + 1

theorem create_undefined (hm : Mounted fs disk) {name : Bytes} {size : BitVec 32} (junk : Junk)
    (hsize : maxFileSize < size.toInt) (hroom : ¬Refused disk name size) :
    fs.create disk name size junk = .error .undefined := by
  have hover : numDirect < FileHeader.sectorsFor size := by
    rw [← not_le, FileHeader.sectorsFor_le_iff]
    omega
  rcases create_reaches hm name size junk with
    ⟨-, hwhy⟩ | ⟨s, l, i, d, hfree, -, -, -, -, hreaches⟩
  · refine absurd (hwhy.imp_right (Or.imp_right fun hnone => ?_)) hroom
    rw [hnone]
    exact Nat.succ_pos _
  · have hfew : ¬(freeMapOn disk).freeList.length < FileHeader.sectorsFor size + 1 := fun h =>
      hroom (.inr (.inr h))
    rw [hfree, List.length_cons] at hfew
    rw [hreaches, store, FileHeader.allocate_undefined _
      (by rw [Bitmap.freeList_markBit hfree]; omega) hover]
    rfl

theorem create_refused (hm : Mounted fs disk) {name : Bytes} {size : BitVec 32} (junk : Junk)
    (h : Refused disk name size) : fs.create disk name size junk = .ok (false, disk) := by
  rcases create_reaches hm name size junk with
    ⟨hfalse, -⟩ | ⟨s, l, i, d, hfree, hi, hunused, hnew, -, hreaches⟩
  · exact hfalse
  · rcases h with ⟨j, t, hj⟩ | hfull | hfew
    · exact absurd hj (hnew j t)
    · exact absurd hunused (hfull i hi)
    · rw [hfree, List.length_cons] at hfew
      rw [hreaches, store, FileHeader.allocate_eq, if_pos]
      · rfl
      · rw [Bitmap.freeList_markBit hfree]
        omega

/-- `Create` keeps to the bounds of the header exactly for the sizes up to `MaxFileSize`, and where
it has another reason to refuse the file. -/
theorem creates_in_bounds_iff (hm : Mounted fs disk) (name : Bytes) (size : BitVec 32)
    (junk : Junk) :
    CreatesInBounds fs disk name size junk ↔
      size.toInt ≤ maxFileSize ∨ Refused disk name size := by
  constructor
  · intro h
    by_contra hnot
    rw [not_or, not_le] at hnot
    have hundefined := create_undefined hm junk hnot.1 hnot.2
    rcases h with hfalse | ⟨disk', s, hdr, b, htrue, -⟩
    · cases hundefined.symm.trans hfalse
    · cases hundefined.symm.trans htrue
  · rintro (hsize | hrefused)
    · rw [← FileHeader.sectorsFor_le_iff] at hsize
      rcases create_reaches hm name size junk with
        ⟨hfalse, -⟩ | ⟨s, l, i, d, hfree, -, -, -, -, hreaches⟩
      · exact .inl hfalse
      · have hlt : s < numSectors := (Bitmap.free_of_freeList hfree).1
        have hbits : ((freeMapOn disk).markBit s).numBits = numSectors := rfl
        rcases FileHeader.allocate_ok (FileHeader.ofBytes (junk 1)) hbits hsize with
          ⟨-, hdr, hfalse⟩ | ⟨-, hdr, b, htrue, hfits, hlength, -, hbits', -⟩
        · refine .inl ?_
          rw [hreaches, store, hfalse]
          rfl
        · obtain ⟨disk', hstore, honDisk⟩ := store_allocated hm hlt d hbits' htrue
          refine .inr ⟨disk', s, hdr, b, hreaches.trans hstore, ?_, honDisk,
            BitVec.eq_of_toInt_eq hlength, hfits.inBounds⟩
          rw [newHeader_eq hm hfree, htrue]
          rfl
    · exact .inl (create_refused hm junk hrefused)

/-- On a disk that has just been formatted, a file of one byte more than `MaxFileSize`. -/
theorem create_writes_behind_header : ∃ fs disk',
    format (fun _ => 0) (fun _ _ => 0) = .ok (fs, disk') ∧
    fs.create disk' (fun i => if i = 0 then 97 else 0) 3841 (fun _ _ => 0) =
      .error .undefined := by
  obtain ⟨fs, disk', hformat, hf⟩ := format_ok (fun _ => 0) (fun _ _ => 0)
  refine ⟨fs, disk', hformat, create_undefined hf.sound.mounted _ (by decide) ?_⟩
  rintro (⟨j, t, hj⟩ | hfull | hfew)
  · rw [hf.entry] at hj
    cases hj
  · exact hfull 0 (by decide) (hf.entry 0)
  · rw [hf.free, List.length_range'] at hfew
    exact absurd hfew (by decide)

/-- On such a disk, a file of `MaxFileSize` bytes. -/
theorem creates_in_bounds_largest : ∃ fs disk',
    format (fun _ => 0) (fun _ _ => 0) = .ok (fs, disk') ∧
    CreatesInBounds fs disk' (fun i => if i = 0 then 97 else 0) 3840 fun _ _ => 0 := by
  obtain ⟨fs, disk', hformat, hf⟩ := format_ok (fun _ => 0) (fun _ _ => 0)
  exact ⟨fs, disk', hformat, (creates_in_bounds_iff hf.sound.mounted _ _ _).mpr (.inl (by decide))⟩

end FileSystem
end Nachos.Filesys
