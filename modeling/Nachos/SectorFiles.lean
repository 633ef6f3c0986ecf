import Nachos.Devices
import Nachos.Lib.BlockFiles
import Nachos.Lib.Programs
import Nachos.Lib.TwosComplement

namespace Nachos.Filesys
open Buffers TwosComplement BlockFiles Programs

/-- What stops a call: an `ASSERT` of the disk, of a bitmap, of `Allocate`, of `Deallocate` or
of the constructor of `FileSystem`, or an access that C++ does not define. -/
inductive Fault where
  | sectorNumber
  | bitNumber
  | allocate
  | deallocate
  | format
  | undefined
  deriving DecidableEq, Repr

def readSector (disk : Bytes) (sectorNumber : Int) (data : Bytes) : Except Fault Bytes :=
  match Disk.readRequest ⟨disk, false⟩ sectorNumber data with
  | .ok (_, data') => .ok data'
  | .error _ => .error .sectorNumber

def writeSector (disk : Bytes) (sectorNumber : Int) (data : Bytes) : Except Fault Bytes :=
  match Disk.writeRequest ⟨disk, false⟩ sectorNumber data with
  | .ok (d, _) => .ok d.file
  | .error _ => .error .sectorNumber

def block (b : Bytes) : Bytes := fun i => if i < sectorSize then b i else 0

def sector (disk : Bytes) (n : ℕ) : Bytes := block (shift disk (Disk.offset n))

theorem block_apply {b : Bytes} {i : ℕ} (h : i < sectorSize) : block b i = b i := if_pos h

theorem validSector_natCast {n : ℕ} (h : n < numSectors) : Disk.validSector n :=
  ⟨Int.natCast_nonneg n, by exact_mod_cast h⟩

theorem readSector_ok {n : ℕ} (h : n < numSectors) (disk data : Bytes) :
    readSector disk n data = .ok (bcopy (sector disk n) data 0 sectorSize) := by
  have hbytes : bcopy (shift disk (Disk.offset n)) data 0 sectorSize =
      bcopy (sector disk n) data 0 sectorSize := by
    funext i
    unfold bcopy
    split_ifs with hi
    · exact (block_apply (by omega)).symm
    · rfl
  have hv : ¬¬Disk.validSector n := not_not.mpr (validSector_natCast h)
  rw [readSector, Disk.readRequest, if_neg Bool.false_ne_true, if_neg hv, ← hbytes]

theorem sector_bcopy (disk data : Bytes) (n m : ℕ) :
    sector (bcopy data disk (Disk.offset n) sectorSize) m =
      if m = n then block data else sector disk m := by
  funext i
  by_cases hi : i < sectorSize
  · have hoff : ∀ k : ℕ, Disk.offset k = sectorSize * k + magicSize := fun k => rfl
    split_ifs with hm
    · subst hm
      rw [sector, block_apply hi, block_apply hi]
      exact bcopy_inside hi
    · rw [sector, sector, block_apply hi, block_apply hi]
      refine bcopy_outside ?_
      rw [hoff, hoff]
      unfold sectorSize at *
      omega
  · split_ifs <;> simp only [sector, block, if_neg hi]

theorem writeSector_ok {n : ℕ} (h : n < numSectors) (disk data : Bytes) :
    ∃ disk', writeSector disk n data = .ok disk' ∧
      ∀ m, sector disk' m = if m = n then block data else sector disk m := by
  have hv : ¬¬Disk.validSector n := not_not.mpr (validSector_natCast h)
  refine ⟨bcopy data disk (Disk.offset n) sectorSize, ?_, sector_bcopy disk data n⟩
  rw [writeSector, Disk.writeRequest, if_neg Bool.false_ne_true, if_neg hv]

def numDirect : ℕ := (sectorSize - 2 * 4) / 4

structure FileHeader where
  numBytes : BitVec 32
  numSectors : BitVec 32
  dataSectors : Fin numDirect → BitVec 32

namespace FileHeader

def word (h : FileHeader) (j : ℕ) : BitVec 32 :=
  if j = 0 then h.numBytes
  else if j = 1 then h.numSectors
  else if hj : j - 2 < numDirect then h.dataSectors ⟨j - 2, hj⟩
  else 0

def toBytes (h : FileHeader) : Bytes := fun i => byteOf (h.word (i / 4)) (i % 4)

def ofBytes (b : Bytes) : FileHeader :=
  ⟨wordAt b 0, wordAt b 4, fun i => wordAt b (8 + 4 * i)⟩

theorem ofBytes_toBytes {h : FileHeader} {b : Bytes} (hb : ∀ i < sectorSize, b i = h.toBytes i) :
    ofBytes b = h := by
  have hword : ∀ j < 32, wordAt b (4 * j) = h.word j := by
    intro j hj
    apply wordAt_of_bytes
    intro k hk
    rw [hb _ (by unfold sectorSize; omega), toBytes, show (4 * j + k) / 4 = j by omega,
      show (4 * j + k) % 4 = k by omega]
  obtain ⟨numBytes, numSectors, dataSectors⟩ := h
  unfold ofBytes
  congr 1
  · exact hword 0 (by omega)
  · exact hword 1 (by omega)
  · funext i
    have hi : (i : ℕ) < 30 := i.isLt
    have h := hword (2 + i) (by omega)
    rw [show 4 * (2 + (i : ℕ)) = 8 + 4 * i by ring] at h
    rw [h, word, if_neg (by omega), if_neg (by omega), dif_pos (by
      rw [Nat.add_sub_cancel_left]
      exact i.isLt)]
    exact congrArg dataSectors (Fin.ext (Nat.add_sub_cancel_left ..))

theorem ofBytes_congr {b b' : Bytes} (h : ∀ i < sectorSize, b i = b' i) :
    ofBytes b = ofBytes b' := by
  have hword : ∀ j, j + 4 ≤ sectorSize → wordAt b j = wordAt b' j := fun j hj =>
    wordAt_congr fun k hk => h _ (by omega)
  unfold ofBytes
  congr 1
  · exact hword 0 (by decide)
  · exact hword 4 (by decide)
  · funext i
    have hi : (i : ℕ) < 30 := i.isLt
    exact hword _ (by unfold sectorSize; omega)

def fetchFrom (disk : Bytes) (sector : Int) : Except Fault FileHeader :=
  (readSector disk sector fun _ => 0).map ofBytes

def writeBack (h : FileHeader) (disk : Bytes) (sector : Int) : Except Fault Bytes :=
  writeSector disk sector h.toBytes

def byteToSector (h : FileHeader) (offset : Int) : Except Fault Int :=
  let i := offset.tdiv sectorSize
  if hi : 0 ≤ i ∧ i < numDirect then .ok (h.dataSectors ⟨i.toNat, by omega⟩).toInt
  else .error .undefined

def fileLength (h : FileHeader) : Int := h.numBytes.toInt

/-- The header in a sector. -/
def onDisk (disk : Bytes) (n : ℕ) : FileHeader := ofBytes (sector disk n)

theorem fetchFrom_ok {n : ℕ} (hn : n < Nachos.numSectors) (disk : Bytes) :
    fetchFrom disk n = .ok (onDisk disk n) := by
  rw [fetchFrom, readSector_ok hn]
  exact congrArg Except.ok (ofBytes_congr fun i hi => bcopy_start hi)

theorem writeBack_ok {n : ℕ} (hn : n < Nachos.numSectors) (h : FileHeader) (disk : Bytes) :
    ∃ disk', h.writeBack disk n = .ok disk' ∧ onDisk disk' n = h ∧
      ∀ m, m ≠ n → sector disk' m = sector disk m := by
  obtain ⟨disk', hw, hsector⟩ := writeSector_ok hn disk h.toBytes
  refine ⟨disk', hw, ?_, fun m hm => by rw [hsector, if_neg hm]⟩
  rw [onDisk, hsector, if_pos rfl]
  exact ofBytes_toBytes fun i hi => block_apply hi

def count (h : FileHeader) : ℕ := h.numSectors.toInt.toNat

def dataSector (h : FileHeader) (i : ℕ) : ℕ :=
  if hi : i < numDirect then (h.dataSectors ⟨i, hi⟩).toNat else 0

def sectors (h : FileHeader) : List ℕ := (List.range h.count).map h.dataSector

def byte (h : FileHeader) (disk : Bytes) (k : ℕ) : UInt8 :=
  content sectorSize (sector disk) h.dataSector k

/-- The sectors listed are on the disk, none twice, and have room for the file. -/
structure Valid (h : FileHeader) : Prop where
  count_le : h.count ≤ numDirect
  fits : h.fileLength ≤ sectorSize * h.count
  onDisk : ∀ n ∈ h.sectors, n < Nachos.numSectors
  nodup : h.sectors.Nodup

variable {h : FileHeader}

theorem mem_sectors {n : ℕ} : n ∈ h.sectors ↔ ∃ i < h.count, h.dataSector i = n := by
  simp [sectors]

theorem Valid.dataSector_lt (hv : h.Valid) {i : ℕ} (hi : i < h.count) :
    h.dataSector i < Nachos.numSectors := hv.onDisk _ (mem_sectors.mpr ⟨i, hi, rfl⟩)

theorem Valid.dataSector_inj (hv : h.Valid) {i j : ℕ} (hi : i < h.count) (hj : j < h.count)
    (hij : h.dataSector i = h.dataSector j) : i = j := by
  have hinj := List.inj_on_of_nodup_map hv.nodup
  exact hinj (List.mem_range.mpr hi) (List.mem_range.mpr hj) hij

theorem toInt_dataSectors {i : ℕ} (hi : i < numDirect)
    (hsmall : h.dataSector i < Nachos.numSectors) :
    (h.dataSectors ⟨i, hi⟩).toInt = (h.dataSector i : Int) := by
  rw [dataSector, dif_pos hi] at hsmall ⊢
  rw [BitVec.toInt_eq_toNat_of_lt]
  exact lt_of_lt_of_le (Nat.mul_lt_mul_of_pos_left hsmall (by decide)) (by decide)

theorem Valid.byteToSector (hv : h.Valid) {i : ℕ} (hi : i < h.count) :
    h.byteToSector ((i * sectorSize : ℕ) : Int) = .ok (h.dataSector i : Int) := by
  have hlt : i < numDirect := lt_of_lt_of_le hi hv.count_le
  have hdiv : (((i * sectorSize : ℕ) : Int)).tdiv sectorSize = i := by
    rw [Nat.cast_mul, Int.mul_tdiv_cancel _ (by decide)]
  have hin : 0 ≤ (i : Int) ∧ (i : Int) < numDirect := ⟨Int.natCast_nonneg i, by exact_mod_cast hlt⟩
  unfold FileHeader.byteToSector
  simp only [hdiv, hin, and_self, dite_true, Int.toNat_natCast]
  rw [toInt_dataSectors hlt (hv.dataSector_lt hi)]

end FileHeader

/-- `OpenFile` without `FILESYS_STUB`.  Its requests find the disk idle, which the lock of
`SynchDisk` sees to. -/
structure OpenFile where
  hdr : FileHeader
  seekPosition : Int

namespace OpenFile

def new (disk : Bytes) (sector : Int) : Except Fault OpenFile := do
  return ⟨← FileHeader.fetchFrom disk sector, 0⟩

theorem new_ok {n : ℕ} (hn : n < numSectors) (disk : Bytes) :
    new disk n = .ok ⟨FileHeader.onDisk disk n, 0⟩ := by
  rw [new, FileHeader.fetchFrom_ok hn]
  rfl

/-- The loop of `ReadAt` from sector `i` of the file on, with `n` sectors to go. -/
def readSectors (hdr : FileHeader) (disk : Bytes) (firstSector : ℕ) :
    (n i : ℕ) → Bytes → Except Fault Bytes
  | 0, _, buf => .ok buf
  | n + 1, i, buf => do
    let k := (i - firstSector) * sectorSize
    let data ← readSector disk (← hdr.byteToSector ((i * sectorSize : ℕ) : Int)) (shift buf k)
    readSectors hdr disk firstSector n (i + 1) (bcopy data buf k sectorSize)

def writeSectors (hdr : FileHeader) (buf : Bytes) (firstSector : ℕ) :
    (n i : ℕ) → Bytes → Except Fault Bytes
  | 0, _, disk => .ok disk
  | n + 1, i, disk => do
    let k := (i - firstSector) * sectorSize
    let disk' ← writeSector disk (← hdr.byteToSector ((i * sectorSize : ℕ) : Int)) (shift buf k)
    writeSectors hdr buf firstSector n (i + 1) disk'

/-- The check at the start of `ReadAt` and `WriteAt`: the number of bytes to transfer.  A
negative position leads outside the buffer, and the sum must be an `int`. -/
def checkRequest (hdr : FileHeader) (numBytes position : Int) : Except Fault ℕ :=
  if numBytes ≤ 0 ∨ hdr.fileLength ≤ position then .ok 0
  else if position < 0 ∨ intMax < position + numBytes then .error .undefined
  else if hdr.fileLength < position + numBytes then .ok (hdr.fileLength - position).toNat
  else .ok numBytes.toNat

/-- The number of bytes read, and the buffer behind `into`.  Every byte of the inner buffer
is read from the disk. -/
def readAt (hdr : FileHeader) (disk into : Bytes) (numBytes position : Int) :
    Except Fault (ℕ × Bytes) := do
  let numBytes ← checkRequest hdr numBytes position
  if numBytes = 0 then return (0, into)
  else
    let position := position.toNat
    let firstSector := position / sectorSize
    let lastSector := (position + numBytes - 1) / sectorSize
    let buf ← readSectors hdr disk firstSector (1 + lastSector - firstSector) firstSector
      fun _ => 0
    return (numBytes, bcopy (shift buf (position - firstSector * sectorSize)) into 0 numBytes)

def readPart (hdr : FileHeader) (disk buf : Bytes) (k i : ℕ) : Except Fault Bytes := do
  let r ← readAt hdr disk (shift buf k) sectorSize ((i * sectorSize : ℕ) : Int)
  return bcopy r.2 buf k sectorSize

/-- The first sector is read in if it is to be partially modified. -/
def readFirst (hdr : FileHeader) (disk buf : Bytes) (position firstSector : ℕ) :
    Except Fault Bytes :=
  if position = firstSector * sectorSize then .ok buf else readPart hdr disk buf 0 firstSector

/-- The last sector is read in if it is to be partially modified and has not been read. -/
def readLast (hdr : FileHeader) (disk buf : Bytes) (position numBytes firstSector lastSector : ℕ) :
    Except Fault Bytes :=
  let firstAligned := position = firstSector * sectorSize
  let lastAligned := position + numBytes = (lastSector + 1) * sectorSize
  if ¬lastAligned ∧ (firstSector ≠ lastSector ∨ firstAligned) then
    readPart hdr disk buf ((lastSector - firstSector) * sectorSize) lastSector
  else .ok buf

/-- The number of bytes written, and the disk; `buf` is what `new` returns. -/
def writeAt (hdr : FileHeader) (disk source : Bytes) (numBytes position : Int) (buf : Bytes) :
    Except Fault (ℕ × Bytes) := do
  let numBytes ← checkRequest hdr numBytes position
  if numBytes = 0 then return (0, disk)
  else
    let position := position.toNat
    let firstSector := position / sectorSize
    let lastSector := (position + numBytes - 1) / sectorSize
    let buf₁ ← readFirst hdr disk buf position firstSector
    let buf₂ ← readLast hdr disk buf₁ position numBytes firstSector lastSector
    let disk' ← writeSectors hdr
      (bcopy source buf₂ (position - firstSector * sectorSize) numBytes)
      firstSector (1 + lastSector - firstSector) firstSector disk
    return (numBytes, disk')

def read (f : OpenFile) (disk into : Bytes) (numBytes : Int) :
    Except Fault (List UInt8 × OpenFile) := do
  let (result, into') ← readAt f.hdr disk into numBytes f.seekPosition
  return ((List.range result).map into', { f with seekPosition := f.seekPosition + result })

def seek (f : OpenFile) (position : Int) : OpenFile := { f with seekPosition := position }

def length (f : OpenFile) : Int := f.hdr.fileLength

def write (f : OpenFile) (disk source : Bytes) (numBytes : Int) (buf : Bytes) :
    Except Fault (ℕ × OpenFile × Bytes) := do
  let (result, disk') ← writeAt f.hdr disk source numBytes f.seekPosition buf
  return (result, { f with seekPosition := f.seekPosition + result }, disk')

def transferred (hdr : FileHeader) (numBytes position : Int) : ℕ :=
  (min numBytes (hdr.fileLength - position)).toNat

section Specs
variable {hdr : FileHeader} (hv : hdr.Valid) (disk : Bytes)
include hv

theorem readSectors_ok {firstSector n i : ℕ} {buf : Bytes} (hfirst : firstSector ≤ i)
    (hn : i + n ≤ hdr.count) :
    readSectors hdr disk firstSector n i buf = .ok fun j =>
      if (i - firstSector) * sectorSize ≤ j ∧ j < (i - firstSector + n) * sectorSize then
        hdr.byte disk (firstSector * sectorSize + j)
      else buf j := by
  induction n generalizing i buf with
  | zero =>
    rw [readSectors]
    refine congrArg Except.ok (funext fun j => ?_)
    rw [if_neg (by rw [Nat.add_zero]; omega)]
  | succ n ih =>
    have hi : i < hdr.count := by omega
    rw [readSectors, hv.byteToSector hi, except_ok_bind, readSector_ok (hv.dataSector_lt hi),
      except_ok_bind, ih (by omega) (by omega)]
    refine congrArg Except.ok (funext fun j => ?_)
    obtain ⟨d, rfl⟩ : ∃ d, i = firstSector + d := ⟨i - firstSector, by omega⟩
    rw [Nat.add_sub_cancel_left, show firstSector + d + 1 - firstSector = d + 1 by omega]
    by_cases hin : d * sectorSize ≤ j ∧ j < d * sectorSize + sectorSize
    · -- the sector read in this round
      obtain ⟨q, rfl⟩ : ∃ q, j = d * sectorSize + q := ⟨j - d * sectorSize, by omega⟩
      have hq : q < sectorSize := by omega
      rw [if_neg (by rw [Nat.succ_mul]; omega), bcopy_inside hq, bcopy_start hq,
        if_pos ⟨by omega, by rw [Nat.add_mul, Nat.succ_mul]; omega⟩, FileHeader.byte, content,
        show firstSector * sectorSize + (d * sectorSize + q) = q + sectorSize * (firstSector + d) by
          ring, Nat.add_mul_div_left _ _ (by decide), Nat.add_mul_mod_self_left,
        Nat.div_eq_of_lt hq, Nat.mod_eq_of_lt hq, Nat.zero_add]
    · rw [bcopy_outside (by omega)]
      refine if_congr ?_ rfl rfl
      rw [show (d + 1) * sectorSize = d * sectorSize + sectorSize by ring,
        show (d + 1 + n) * sectorSize = d * sectorSize + sectorSize + n * sectorSize by ring,
        show (d + (n + 1)) * sectorSize = d * sectorSize + sectorSize + n * sectorSize by ring]
      omega

omit hv in
theorem checkRequest_ok {numBytes position : Int} (hpos : 0 ≤ position)
    (hint : position + numBytes ≤ intMax) :
    checkRequest hdr numBytes position = .ok (transferred hdr numBytes position) := by
  unfold checkRequest transferred
  split_ifs with h₁ h₂ h₃
  · exact congrArg Except.ok (by omega)
  · omega
  · exact congrArg Except.ok (by omega)
  · exact congrArg Except.ok (by omega)

omit hv in
theorem transferred_le {numBytes position : Int} (hpos : 0 ≤ position)
    (ht : transferred hdr numBytes position ≠ 0) :
    ((position.toNat + transferred hdr numBytes position : ℕ) : Int) ≤ hdr.fileLength := by
  unfold transferred at *
  omega

theorem lastSector_lt {position n : ℕ} (hn : n ≠ 0)
    (hle : ((position + n : ℕ) : Int) ≤ hdr.fileLength) :
    position / sectorSize + (1 + (position + n - 1) / sectorSize - position / sectorSize) ≤
      hdr.count := by
  have hfits := hv.fits
  have hmono : position / sectorSize ≤ (position + n - 1) / sectorSize :=
    Nat.div_le_div_right (by omega)
  have hlast : (position + n - 1) / sectorSize < hdr.count := by
    rw [Nat.div_lt_iff_lt_mul (by decide), Nat.mul_comm]
    zify
    push_cast at hle
    omega
  omega

theorem readAt_ok (into : Bytes) {numBytes position : Int} (hpos : 0 ≤ position)
    (hint : position + numBytes ≤ intMax) :
    readAt hdr disk into numBytes position =
      .ok (transferred hdr numBytes position,
        bcopy (fun j => hdr.byte disk (position.toNat + j)) into 0
          (transferred hdr numBytes position)) := by
  rw [readAt, checkRequest_ok hpos hint, except_ok_bind]
  dsimp only
  split_ifs with ht
  · rw [ht]
    refine congrArg (fun b => Except.ok (0, b)) (funext fun j => ?_)
    exact (bcopy_outside (by omega)).symm
  · rw [readSectors_ok hv disk le_rfl (lastSector_lt hv ht (transferred_le hpos ht)),
      except_ok_bind]
    refine congrArg (fun b => Except.ok (_, b)) (funext fun j => ?_)
    generalize transferred hdr numBytes position = n at ht ⊢
    generalize position.toNat = p
    by_cases hj : j < n
    · rw [bcopy_start hj, bcopy_start hj]
      dsimp only [shift]
      rw [if_pos (by unfold sectorSize; omega)]
      congr 1
      unfold sectorSize
      omega
    · rw [bcopy_outside (by omega), bcopy_outside (by omega)]

theorem writeSectors_ok (buf : Bytes) (firstSector : ℕ) {n i : ℕ} (hn : i + n ≤ hdr.count) :
    ∃ disk', writeSectors hdr buf firstSector n i disk = .ok disk' ∧
      (∀ q, i ≤ q → q < i + n →
        sector disk' (hdr.dataSector q) = block (shift buf ((q - firstSector) * sectorSize))) ∧
      ∀ m, (∀ q, i ≤ q → q < i + n → m ≠ hdr.dataSector q) → sector disk' m = sector disk m := by
  induction n generalizing i disk with
  | zero => exact ⟨disk, rfl, fun q h₁ h₂ => absurd h₂ (by omega), fun m _ => rfl⟩
  | succ n ih =>
    have hi : i < hdr.count := by omega
    obtain ⟨disk₁, hw, hsector⟩ := writeSector_ok (hv.dataSector_lt hi) disk
      (shift buf ((i - firstSector) * sectorSize))
    obtain ⟨disk', hrest, hin, hout⟩ := ih (i := i + 1) disk₁ (by omega)
    refine ⟨disk', ?_, fun q h₁ h₂ => ?_, fun m hm => ?_⟩
    · rw [writeSectors, hv.byteToSector hi, except_ok_bind, hw]
      exact hrest
    · rcases Nat.eq_or_lt_of_le h₁ with rfl | hlt
      · -- the later rounds write other sectors
        rw [hout, hsector, if_pos rfl]
        intro q hq hq' he
        have := hv.dataSector_inj hi (by omega) he
        omega
      · exact hin q hlt (by omega)
    · rw [hout m fun q h₁ h₂ => hm q (by omega) (by omega), hsector, if_neg]
      exact hm i le_rfl (by omega)

theorem writeSectors_byte (buf : Bytes) (firstSector : ℕ) {n : ℕ}
    (hn : firstSector + n ≤ hdr.count) :
    ∃ disk', writeSectors hdr buf firstSector n firstSector disk = .ok disk' ∧
      (∀ m, m ∉ hdr.sectors → sector disk' m = sector disk m) ∧
      ∀ k : ℕ, (k : Int) < hdr.fileLength → hdr.byte disk' k =
        if firstSector * sectorSize ≤ k ∧ k < (firstSector + n) * sectorSize then
          buf (k - firstSector * sectorSize)
        else hdr.byte disk k := by
  obtain ⟨disk', hwrite, hin, hout⟩ := writeSectors_ok hv disk buf firstSector hn
  refine ⟨disk', hwrite, fun m hm => hout m ?_, fun k hk => ?_⟩
  · rintro q hq hq' rfl
    exact hm (FileHeader.mem_sectors.mpr ⟨q, by omega, rfl⟩)
  · have hfits := hv.fits
    have hk' : k / sectorSize < hdr.count := by
      rw [Nat.div_lt_iff_lt_mul (by decide), Nat.mul_comm]
      zify
      omega
    refine content_write firstSector n buf (fun q h₁ h₂ j hj => ?_) ?_ (by decide)
    · rw [hin q h₁ h₂, block_apply hj]
      rfl
    · rintro q rfl hq
      refine hout _ fun q' h₁ h₂ he => hq ?_
      rw [hv.dataSector_inj hk' (by omega) he]
      exact ⟨h₁, h₂⟩

theorem readPart_ok (buf : Bytes) (k : ℕ) {i : ℕ} (hi : i < hdr.count) :
    ∃ buf', readPart hdr disk buf k i = .ok buf' ∧
      (∀ j < sectorSize, ((i * sectorSize + j : ℕ) : Int) < hdr.fileLength →
        buf' (k + j) = hdr.byte disk (i * sectorSize + j)) ∧
      ∀ j, j < k ∨ k + sectorSize ≤ j → buf' j = buf j := by
  have hlt : i < 30 := lt_of_lt_of_le hi hv.count_le
  have hint : ((i * sectorSize : ℕ) : Int) + sectorSize ≤ intMax := by
    unfold sectorSize intMax
    omega
  have hread := readAt_ok hv disk (shift buf k) (Int.natCast_nonneg _) hint
  rw [readPart, hread, except_ok_bind]
  refine ⟨_, rfl, fun j hj hlen => ?_, fun j hj => bcopy_outside hj⟩
  have hj' : j < transferred hdr sectorSize ((i * sectorSize : ℕ) : Int) := by
    unfold transferred
    push_cast at hlen ⊢
    omega
  rw [bcopy_inside hj]
  dsimp only
  rw [bcopy_start hj', Int.toNat_natCast]

theorem readFirst_ok (buf : Bytes) (p : ℕ) {first : ℕ} (hfirst : first < hdr.count) :
    ∃ buf', readFirst hdr disk buf p first = .ok buf' ∧
      (p ≠ first * sectorSize → ∀ j < sectorSize,
        ((first * sectorSize + j : ℕ) : Int) < hdr.fileLength →
        buf' j = hdr.byte disk (first * sectorSize + j)) := by
  unfold readFirst
  split_ifs with haligned
  · exact ⟨buf, rfl, fun h => absurd haligned h⟩
  · obtain ⟨buf', hread, hin, -⟩ := readPart_ok hv disk buf 0 hfirst
    exact ⟨buf', hread, fun _ j hj hlen => by rw [← hin j hj hlen, Nat.zero_add]⟩

/-- The bytes of the sectors to be written that the request does not give are those of the
file. -/
theorem readLast_ok {buf : Bytes} {p n first last : ℕ} (hlast : last < hdr.count)
    (hbounds : first * sectorSize ≤ p ∧ p < (first + 1) * sectorSize ∧
      last * sectorSize < p + n ∧ p + n ≤ (last + 1) * sectorSize) (hmono : first ≤ last)
    (hhead : p ≠ first * sectorSize → ∀ j < sectorSize,
      ((first * sectorSize + j : ℕ) : Int) < hdr.fileLength →
      buf j = hdr.byte disk (first * sectorSize + j)) :
    ∃ buf', readLast hdr disk buf p n first last = .ok buf' ∧
      ∀ j : ℕ, ((first * sectorSize + j : ℕ) : Int) < hdr.fileLength →
        first * sectorSize + j < (last + 1) * sectorSize →
        ¬(p ≤ first * sectorSize + j ∧ first * sectorSize + j < p + n) →
        buf' j = hdr.byte disk (first * sectorSize + j) := by
  unfold readLast
  dsimp only
  split_ifs with hcond
  · obtain ⟨buf', hread, hin, hout⟩ := readPart_ok hv disk buf
      ((last - first) * sectorSize) hlast
    refine ⟨buf', hread, fun j hlen hj hgap => ?_⟩
    by_cases hsector : last * sectorSize ≤ first * sectorSize + j
    · obtain ⟨q, rfl⟩ : ∃ q, j = (last - first) * sectorSize + q :=
        ⟨j - (last - first) * sectorSize, by rw [Nat.sub_mul]; omega⟩
      have hq : first * sectorSize + ((last - first) * sectorSize + q) = last * sectorSize + q := by
        unfold sectorSize
        omega
      rw [hq] at hlen hj ⊢
      exact hin q (by unfold sectorSize at *; omega) hlen
    · rw [hout j (.inl (by unfold sectorSize at *; omega))]
      exact hhead (by unfold sectorSize at *; omega) j (by unfold sectorSize at *; omega) hlen
  · refine ⟨buf, rfl, fun j hlen hj hgap => ?_⟩
    exact hhead (by unfold sectorSize at *; omega) j (by unfold sectorSize at *; omega) hlen

/-- `WriteAt` writes data sectors of the file only, and changes in the file the bytes that it
is given, as far as they lie in it. -/
theorem writeAt_ok (source buf : Bytes) {numBytes position : Int} (hpos : 0 ≤ position)
    (hint : position + numBytes ≤ intMax) :
    ∃ disk', writeAt hdr disk source numBytes position buf =
        .ok (transferred hdr numBytes position, disk') ∧
      (∀ m, m ∉ hdr.sectors → sector disk' m = sector disk m) ∧
      ∀ k : ℕ, (k : Int) < hdr.fileLength → hdr.byte disk' k =
        if position.toNat ≤ k ∧ k < position.toNat + transferred hdr numBytes position then
          source (k - position.toNat)
        else hdr.byte disk k := by
  rw [writeAt, checkRequest_ok hpos hint, except_ok_bind]
  dsimp only
  by_cases ht : transferred hdr numBytes position = 0
  · rw [if_pos ht, ht]
    refine ⟨disk, rfl, fun m _ => rfl, fun k _ => ?_⟩
    rw [if_neg (by omega)]
  · rw [if_neg ht]
    have hle := transferred_le hpos ht
    generalize transferred hdr numBytes position = n at ht hle ⊢
    generalize position.toNat = p at hle ⊢
    have hcount := lastSector_lt hv ht hle
    have hbounds : p / sectorSize * sectorSize ≤ p ∧ p < (p / sectorSize + 1) * sectorSize ∧
        (p + n - 1) / sectorSize * sectorSize < p + n ∧
        p + n ≤ ((p + n - 1) / sectorSize + 1) * sectorSize := by
      unfold sectorSize
      omega
    have hmono : p / sectorSize ≤ (p + n - 1) / sectorSize := Nat.div_le_div_right (by omega)
    generalize p / sectorSize = first at hcount hbounds hmono ⊢
    generalize (p + n - 1) / sectorSize = last at hcount hbounds hmono ⊢
    have hfirst : first < hdr.count := by omega
    -- the two partial sectors are filled up from the disk before the whole range is written
    obtain ⟨buf₁, hbuf₁, hhead⟩ := readFirst_ok hv disk buf p hfirst
    obtain ⟨buf₂, hbuf₂, hgap⟩ := readLast_ok hv disk (by omega) hbounds hmono hhead
    obtain ⟨disk', hwrite, hout, hin⟩ := writeSectors_byte hv disk
      (bcopy source buf₂ (p - first * sectorSize) n) first hcount
    rw [hbuf₁, except_ok_bind, hbuf₂, except_ok_bind, hwrite]
    refine ⟨disk', rfl, hout, fun k hk => ?_⟩
    have hspan : (first + (1 + last - first)) * sectorSize = (last + 1) * sectorSize := by
      congr 1
      omega
    rw [hin k hk, hspan]
    -- a byte of the request, a byte of the sectors written around it, or any other
    by_cases hreq : p ≤ k ∧ k < p + n
    · obtain ⟨j, rfl⟩ : ∃ j, k = p + j := ⟨k - p, by omega⟩
      have hj : p + j - first * sectorSize = p - first * sectorSize + j := by omega
      rw [if_pos ⟨by omega, by omega⟩, if_pos hreq, hj, bcopy_inside (by omega),
        Nat.add_sub_cancel_left]
    · rw [if_neg hreq]
      split_ifs with hsectors
      · obtain ⟨j, rfl⟩ : ∃ j, k = first * sectorSize + j := ⟨k - first * sectorSize, by omega⟩
        rw [Nat.add_sub_cancel_left, bcopy_outside (by omega)]
        exact hgap j hk hsectors.2 hreq
      · rfl

section WholeFile
variable {n : ℕ} (hlen : hdr.fileLength = n)
include hlen

omit hv in
theorem transferred_whole : transferred hdr n 0 = n := by
  rw [transferred, hlen, sub_zero, min_self, Int.toNat_natCast]

omit hv in
theorem length_le_intMax : (0 : Int) + n ≤ intMax := by
  have hlt := hdr.numBytes.toInt_lt
  rw [FileHeader.fileLength] at hlen
  unfold intMax
  omega

theorem readWhole_ok (into : Bytes) :
    readAt hdr disk into n 0 = .ok (n, bcopy (hdr.byte disk) into 0 n) := by
  rw [readAt_ok hv disk into le_rfl (length_le_intMax hlen), transferred_whole hlen]
  simp only [Int.toNat_zero, Nat.zero_add]

theorem writeWhole_ok (source buf : Bytes) :
    ∃ disk', writeAt hdr disk source n 0 buf = .ok (n, disk') ∧
      (∀ m, m ∉ hdr.sectors → sector disk' m = sector disk m) ∧
      ∀ k < n, hdr.byte disk' k = source k := by
  obtain ⟨disk', hwrite, hframe, hbyte⟩ :=
    writeAt_ok hv disk source buf le_rfl (length_le_intMax hlen)
  rw [transferred_whole hlen] at hwrite hbyte
  refine ⟨disk', hwrite, hframe, fun k hk => ?_⟩
  rw [hbyte k (by rw [hlen]; exact_mod_cast hk), if_pos (by simpa using hk)]
  rfl

end WholeFile
end Specs

/-- `Write` leaves the sectors of other files alone; it is stopped if the end of the request is
not an `int`. -/
theorem write_cases {f : OpenFile} (hv : f.hdr.Valid) (hpos : 0 ≤ f.seekPosition) (disk : Bytes)
    (source : Bytes) (numBytes : Int) (buf : Bytes) :
    f.write disk source numBytes buf = .error .undefined ∨
    ∃ (t : ℕ) (disk' : Bytes), f.write disk source numBytes buf =
        .ok (t, { f with seekPosition := f.seekPosition + t }, disk') ∧
      ∀ m, m ∉ f.hdr.sectors → sector disk' m = sector disk m := by
  by_cases hint : f.seekPosition + numBytes ≤ intMax
  · obtain ⟨disk', hwrite, hframe, -⟩ := writeAt_ok hv disk source buf hpos hint
    refine .inr ⟨transferred f.hdr numBytes f.seekPosition, disk', ?_, hframe⟩
    rw [write, hwrite]
    rfl
  · by_cases hnone : numBytes ≤ 0 ∨ f.hdr.fileLength ≤ f.seekPosition
    · refine .inr ⟨0, disk, ?_, fun _ _ => rfl⟩
      rw [write, writeAt, checkRequest, if_pos hnone]
      rfl
    · refine .inl ?_
      rw [write, writeAt, checkRequest, if_neg hnone, if_pos (.inr (by omega))]
      rfl

/-- `ReadAt` and `WriteAt` transfer the part of the request that lies in the file.  A read gives
these bytes; a write replaces them and nothing else, so that the same read then gives what has
been written. -/
theorem sector_io_byte_array {hdr : FileHeader} (hv : hdr.Valid) (disk into source buf : Bytes)
    {numBytes position : Int} (hpos : 0 ≤ position) (hint : position + numBytes ≤ intMax) :
    ∃ k : ℕ, (k : Int) = max 0 (min numBytes (hdr.fileLength - position)) ∧
      readAt hdr disk into numBytes position =
        .ok (k, bcopy (fun j => hdr.byte disk (position.toNat + j)) into 0 k) ∧
      ∃ disk', writeAt hdr disk source numBytes position buf = .ok (k, disk') ∧
        (∀ j < k, hdr.byte disk' (position.toNat + j) = source j) ∧
        (∀ i : ℕ, (i : Int) < hdr.fileLength →
          ¬(position.toNat ≤ i ∧ i < position.toNat + k) → hdr.byte disk' i = hdr.byte disk i) ∧
        (∀ m, m ∉ hdr.sectors → sector disk' m = sector disk m) ∧
        readAt hdr disk' into numBytes position = .ok (k, bcopy source into 0 k) := by
  obtain ⟨disk', hwrite, hframe, hbyte⟩ := writeAt_ok hv disk source buf hpos hint
  have hwritten : ∀ j < transferred hdr numBytes position,
      hdr.byte disk' (position.toNat + j) = source j := by
    intro j hj
    have hin := transferred_le hpos (Nat.ne_of_gt (Nat.zero_lt_of_lt hj))
    rw [hbyte _ (by omega), if_pos (by omega), Nat.add_sub_cancel_left]
  refine ⟨transferred hdr numBytes position, ?_, readAt_ok hv disk into hpos hint, disk', hwrite,
    hwritten, fun i hi hout => ?_, hframe, ?_⟩
  · unfold transferred
    omega
  · rw [hbyte i hi, if_neg hout]
  · rw [readAt_ok hv disk' into hpos hint]
    refine congrArg (fun b => Except.ok (_, b)) (funext fun i => ?_)
    unfold bcopy
    split_ifs with hi
    · exact hwritten _ (by omega)
    · rfl

def twoSectors : FileHeader := ⟨200, 2, fun i => BitVec.ofNat 32 (5 + i)⟩

theorem valid_twoSectors : twoSectors.Valid :=
  ⟨by decide, by decide, by decide, by decide⟩

/-- 20 bytes from 120 on lie across the boundary of the two sectors. -/
theorem sector_io_byte_array_across : ∃ disk',
    writeAt twoSectors (fun _ => 0) (fun _ => 7) 20 120 (fun _ => 0) = .ok (20, disk') ∧
    readAt twoSectors disk' (fun _ => 0) 20 120 =
      .ok (20, bcopy (fun _ => 7) (fun _ => 0) 0 20) := by
  obtain ⟨k, hk, -, disk', hwrite, -, -, -, hread⟩ := sector_io_byte_array valid_twoSectors
    (fun _ => 0) (fun _ => 0) (fun _ => 7) (fun _ => 0) (show (0 : Int) ≤ 120 by decide)
    (show 120 + (20 : Int) ≤ intMax by decide)
  obtain rfl : k = 20 := Int.ofNat_inj.mp (hk.trans (by decide))
  exact ⟨disk', hwrite, hread⟩

end OpenFile
end Nachos.Filesys
