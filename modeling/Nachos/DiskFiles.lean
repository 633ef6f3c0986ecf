import Nachos.Bitmap
import Nachos.SectorFiles
import Mathlib.Data.List.GetD

namespace Nachos.Filesys
open Buffers TwosComplement Programs

def freeMapSector : ℕ := 0
def directorySector : ℕ := 1
def bitsInByte : ℕ := 8
def freeMapFileSize : ℕ := numSectors / bitsInByte
def numDirEntries : ℕ := 10
def fileNameMaxLen : ℕ := 9

/-- `sizeof(DirectoryEntry)`: `inUse` at 0, `sector` at 4, `name` at 8, padding at 1 and 18. -/
def entrySize : ℕ := 20
def directoryFileSize : ℕ := entrySize * numDirEntries

def divRoundUpInt (n s : Int) : Int := n.tdiv s + if n.tmod s > 0 then 1 else 0

namespace PersistentBitmap

def mark (b : Bitmap) (which : Int) : Except Fault Bitmap :=
  if 0 ≤ which ∧ which < b.numBits then
    let b' := b.markBit which.toNat
    if b'.testBit which.toNat then .ok b' else .error .bitNumber
  else .error .bitNumber

def test (b : Bitmap) (which : Int) : Except Fault Bool :=
  if 0 ≤ which ∧ which < b.numBits then .ok (b.testBit which.toNat) else .error .bitNumber

def clear (b : Bitmap) (which : Int) : Except Fault Bitmap :=
  match b.clear which with
  | some b' => .ok b'
  | none => .error .bitNumber

def wordOf (b : Bytes) (j : ℕ) : BitVec bitsInWord := wordAt b (4 * j)

def ofBytes (b : Bytes) : Bitmap where
  numBits := numSectors
  map := (List.range (divRoundUp numSectors bitsInWord)).map (wordOf b)
  map_length := by rw [List.length_map, List.length_range]

def words (b : Bitmap) : List (BitVec 32) := b.map

def toBytes (b : Bitmap) : Bytes := wordBytes (words b)

def new (hdr : FileHeader) (disk : Bytes) : Except Fault Bitmap := do
  let b := Bitmap.new numSectors
  let r ← OpenFile.readAt hdr disk (toBytes b) ((4 * b.map.length : ℕ) : Int) 0
  return ofBytes r.2

def writeBack (b : Bitmap) (hdr : FileHeader) (disk buf : Bytes) : Except Fault Bytes := do
  let r ← OpenFile.writeAt hdr disk (toBytes b) ((4 * b.map.length : ℕ) : Int) 0 buf
  return r.2

theorem ofBytes_toBytes {b : Bitmap} {bytes : Bytes} (hb : b.numBits = numSectors)
    (h : ∀ i < freeMapFileSize, bytes i = toBytes b i) : ofBytes bytes = b := by
  obtain ⟨numBits, map, hlen⟩ := b
  subst hb
  have hlen' : map.length = 32 := hlen
  have hmap : (List.range (divRoundUp numSectors bitsInWord)).map (wordOf bytes) = map := by
    apply List.ext_getElem
    · rw [List.length_map, List.length_range]
      exact hlen.symm
    · intro j h₁ h₂
      rw [List.getElem_map, List.getElem_range]
      have hj : 4 * j + 4 ≤ freeMapFileSize := by
        change _ ≤ 128
        omega
      refine (wordAt_wordBytes h hj).trans ?_
      exact List.getD_eq_getElem _ _ h₂
  unfold ofBytes
  congr 1

theorem ofBytes_congr {b b' : Bytes} (h : ∀ i < freeMapFileSize, b i = b' i) :
    ofBytes b = ofBytes b' := by
  have hword : ∀ j ∈ List.range (divRoundUp numSectors bitsInWord), wordOf b j = wordOf b' j := by
    intro j hj
    have hj' : j < 32 := List.mem_range.mp hj
    refine wordAt_congr fun k hk => h _ ?_
    change _ < 128
    omega
  unfold ofBytes
  congr 1
  exact List.map_congr_left hword

theorem mark_ok {b : Bitmap} {n : ℕ} (h : n < b.numBits) : mark b n = .ok (b.markBit n) := by
  have ht : n ∈ (b.markBit n).marked := by
    rw [b.marked_markBit h]
    exact Finset.mem_insert_self ..
  rw [mark, if_pos ⟨Int.natCast_nonneg n, by exact_mod_cast h⟩]
  exact if_pos (Bitmap.mem_marked.mp ht).2

theorem test_ok {b : Bitmap} {n : ℕ} (h : n ∈ b.marked) : test b n = .ok true := by
  obtain ⟨hlt, ht⟩ := Bitmap.mem_marked.mp h
  rw [test, if_pos ⟨Int.natCast_nonneg n, by exact_mod_cast hlt⟩]
  exact congrArg Except.ok ht

theorem clear_ok {b : Bitmap} {n : ℕ} (h : n < b.numBits) : clear b n = .ok (b.clearBit n) := by
  rw [clear, Bitmap.clear_eq_some h]

theorem byteSize_eq {b : Bitmap} (hb : b.numBits = numSectors) :
    4 * b.map.length = freeMapFileSize := by
  rw [b.map_length, hb]
  rfl

section OnDisk
variable {hdr : FileHeader} (hv : hdr.Valid) (hlen : hdr.fileLength = freeMapFileSize)
  (disk : Bytes)
include hv hlen

theorem new_ok : new hdr disk = .ok (ofBytes (hdr.byte disk)) := by
  rw [new, byteSize_eq (Bitmap.numBits_new _), OpenFile.readWhole_ok hv disk hlen, except_ok_bind]
  exact congrArg Except.ok (ofBytes_congr fun i hi => bcopy_start hi)

theorem writeBack_ok {b : Bitmap} (hb : b.numBits = numSectors) (buf : Bytes) :
    ∃ disk', writeBack b hdr disk buf = .ok disk' ∧ ofBytes (hdr.byte disk') = b ∧
      ∀ m, m ∉ hdr.sectors → sector disk' m = sector disk m := by
  obtain ⟨disk', hwrite, hframe, hbyte⟩ := OpenFile.writeWhole_ok hv disk hlen (toBytes b) buf
  refine ⟨disk', ?_, ofBytes_toBytes hb hbyte, hframe⟩
  rw [writeBack, byteSize_eq hb, hwrite]
  rfl

end OnDisk
end PersistentBitmap

namespace FileHeader

def allocateLoop : (n i : ℕ) → FileHeader → Bitmap → Except Fault (FileHeader × Bitmap)
  | 0, _, hdr, freeMap => .ok (hdr, freeMap)
  | n + 1, i, hdr, freeMap =>
    let found := freeMap.findAndSet
    if hi : i < numDirect then
      let dataSectors := Function.update hdr.dataSectors ⟨i, hi⟩ (BitVec.ofInt 32 found.2)
      if 0 ≤ found.2 then allocateLoop n (i + 1) { hdr with dataSectors } found.1
      else .error .allocate
    else .error .undefined

def allocate (hdr : FileHeader) (freeMap : Bitmap) (fileSize : BitVec 32) :
    Except Fault (Bool × FileHeader × Bitmap) :=
  let numSectors := BitVec.ofInt 32 (divRoundUpInt fileSize.toInt sectorSize)
  let hdr := { hdr with numBytes := fileSize, numSectors }
  if (freeMap.numClear : Int) < numSectors.toInt then .ok (false, hdr, freeMap)
  else (allocateLoop hdr.count 0 hdr freeMap).map fun r => (true, r.1, r.2)

def deallocateLoop (hdr : FileHeader) : (n i : ℕ) → Bitmap → Except Fault Bitmap
  | 0, _, freeMap => .ok freeMap
  | n + 1, i, freeMap =>
    if hi : i < numDirect then do
      let s := (hdr.dataSectors ⟨i, hi⟩).toInt
      if ← PersistentBitmap.test freeMap s then
        deallocateLoop hdr n (i + 1) (← PersistentBitmap.clear freeMap s)
      else .error .deallocate
    else .error .undefined

def deallocate (hdr : FileHeader) (freeMap : Bitmap) : Except Fault Bitmap :=
  hdr.deallocateLoop hdr.count 0 freeMap

def sectorsFor (fileSize : BitVec 32) : ℕ := (divRoundUpInt fileSize.toInt sectorSize).toNat

/-- The header has room for the sectors, and the sectors have room for the file. -/
structure Fits (h : FileHeader) : Prop where
  count_le : h.count ≤ numDirect
  fits : h.fileLength ≤ sectorSize * h.count

theorem divRoundUpInt_bounds {x : Int} (hlow : intMin ≤ x) (hhigh : x ≤ intMax) :
    intMin ≤ divRoundUpInt x sectorSize ∧ divRoundUpInt x sectorSize ≤ intMax ∧
      x ≤ sectorSize * divRoundUpInt x sectorSize := by
  have htmod := Int.mul_tdiv_add_tmod x sectorSize
  have hle := Int.tmod_lt_of_pos x (show (0 : Int) < sectorSize by decide)
  have hge := Int.lt_tmod_of_pos x (show (0 : Int) < sectorSize by decide)
  unfold divRoundUpInt
  generalize x.tdiv sectorSize = q at htmod ⊢
  generalize x.tmod sectorSize = r at htmod hle hge ⊢
  unfold sectorSize intMin intMax at *
  split_ifs <;> omega

theorem toInt_sectorsFor (fileSize : BitVec 32) :
    (BitVec.ofInt 32 (divRoundUpInt fileSize.toInt sectorSize)).toInt =
      divRoundUpInt fileSize.toInt sectorSize := by
  have hlow := fileSize.le_toInt
  have hhigh := fileSize.toInt_lt
  obtain ⟨h₁, h₂, -⟩ := divRoundUpInt_bounds (x := fileSize.toInt)
    (by unfold intMin; omega) (by unfold intMax; omega)
  unfold intMin at h₁
  unfold intMax at h₂
  rw [BitVec.toInt_ofInt_eq_self (by decide)] <;> norm_num <;> omega

theorem fits_sectorsFor (fileSize : BitVec 32) :
    fileSize.toInt ≤ sectorSize * sectorsFor fileSize := by
  have hlow := fileSize.le_toInt
  have hhigh := fileSize.toInt_lt
  obtain ⟨-, -, h⟩ := divRoundUpInt_bounds (x := fileSize.toInt)
    (by unfold intMin; omega) (by unfold intMax; omega)
  unfold sectorsFor
  unfold sectorSize at *
  omega

theorem dataSector_update (hdr : FileHeader) {i f : ℕ} (hi : i < numDirect)
    (hf : f < Nachos.numSectors) (j : ℕ) :
    FileHeader.dataSector { hdr with
      dataSectors := Function.update hdr.dataSectors ⟨i, hi⟩ (BitVec.ofInt 32 f) } j =
        if j = i then f else hdr.dataSector j := by
  split_ifs with hj
  · subst hj
    have hsmall : (BitVec.ofInt 32 f).toNat = f := by
      rw [BitVec.ofInt_natCast, BitVec.toNat_ofNat]
      exact Nat.mod_eq_of_lt (lt_trans hf (by decide))
    rw [dataSector, dif_pos hi]
    dsimp only
    rw [Function.update_self, hsmall]
  · unfold dataSector
    dsimp only
    split_ifs with hlt
    · rw [Function.update_of_ne fun h => hj (Fin.mk.inj_iff.mp h)]
    · rfl

theorem allocateLoop_ok {n i : ℕ} (hdr : FileHeader) {freeMap : Bitmap} {l : List ℕ}
    (hfree : freeMap.freeList = l) (hn : n ≤ l.length) (hi : i + n ≤ numDirect)
    (hbits : freeMap.numBits = Nachos.numSectors) :
    ∃ hdr' freeMap', allocateLoop n i hdr freeMap = .ok (hdr', freeMap') ∧
      hdr'.numBytes = hdr.numBytes ∧ hdr'.numSectors = hdr.numSectors ∧
      (∀ j < i, hdr'.dataSector j = hdr.dataSector j) ∧
      (∀ j < n, hdr'.dataSector (i + j) = l.getD j 0) ∧
      freeMap'.numBits = Nachos.numSectors ∧ freeMap'.freeList = l.drop n ∧
      ∀ m, m ∈ freeMap'.marked ↔ m ∈ freeMap.marked ∨ m ∈ l.take n := by
  -- on the rounds left; each takes the head of the free list and stores it in entry `i`
  induction n generalizing i hdr freeMap l with
  | zero =>
    refine ⟨hdr, freeMap, rfl, rfl, rfl, fun _ _ => rfl, fun j hj => absurd hj (by omega), hbits,
      hfree, fun m => ?_⟩
    simp
  | succ n ih =>
    obtain ⟨f, l, rfl⟩ : ∃ f l', l = f :: l' := by
      cases l with
      | nil => simp at hn
      | cons f l' => exact ⟨f, l', rfl⟩
    have hi' : i < numDirect := by omega
    have hf : f < Nachos.numSectors := hbits ▸ (Bitmap.free_of_freeList hfree).1
    obtain ⟨hdr', freeMap', hloop, hbytes, hsectors, hbefore, hafter, hbits', hfree', hmarked⟩ :=
      ih (i := i + 1) { hdr with
        dataSectors := Function.update hdr.dataSectors ⟨i, hi'⟩ (BitVec.ofInt 32 f) }
        (Bitmap.freeList_markBit hfree) (by simpa using hn) (by omega) hbits
    refine ⟨hdr', freeMap', ?_, hbytes, hsectors, fun j hj => ?_, fun j hj => ?_, hbits', hfree',
      fun m => ?_⟩
    · rw [allocateLoop, Bitmap.findAndSet_of_freeList hfree]
      dsimp only
      rw [dif_pos hi', if_pos (Int.natCast_nonneg f)]
      exact hloop
    · rw [hbefore j (by omega), dataSector_update hdr hi' hf, if_neg (by omega)]
    · cases j with
      | zero =>
        rw [Nat.add_zero, hbefore i (by omega), dataSector_update hdr hi' hf, if_pos rfl,
          List.getD_cons_zero]
      | succ j =>
        rw [show i + (j + 1) = i + 1 + j by omega, hafter j (by omega), List.getD_cons_succ]
    · rw [hmarked, Bitmap.marked_markBit _ (hbits ▸ hf), Finset.mem_insert, List.take_succ_cons,
        List.mem_cons]
      tauto

theorem sectors_eq {h : FileHeader} {l : List ℕ} (hlen : h.count = l.length)
    (hget : ∀ j < l.length, h.dataSector j = l.getD j 0) : h.sectors = l := by
  apply List.ext_getElem
  · rw [sectors, List.length_map, List.length_range, hlen]
  · intro j h₁ h₂
    rw [← List.getD_eq_getElem l 0 h₂, ← hget j h₂]
    simp [sectors]

def sized (hdr : FileHeader) (fileSize : BitVec 32) : FileHeader :=
  { hdr with
    numBytes := fileSize
    numSectors := BitVec.ofInt 32 (divRoundUpInt fileSize.toInt sectorSize) }

theorem count_sized (hdr : FileHeader) (fileSize : BitVec 32) :
    (hdr.sized fileSize).count = sectorsFor fileSize :=
  congrArg Int.toNat (toInt_sectorsFor fileSize)

theorem allocate_eq (hdr : FileHeader) (freeMap : Bitmap) (fileSize : BitVec 32) :
    hdr.allocate freeMap fileSize =
      if freeMap.freeList.length < sectorsFor fileSize then
        .ok (false, hdr.sized fileSize, freeMap)
      else (allocateLoop (sectorsFor fileSize) 0 (hdr.sized fileSize) freeMap).map
        fun r => (true, r.1, r.2) := by
  have hlen := freeMap.length_freeList
  have hfew : (freeMap.numClear : Int) < (hdr.sized fileSize).numSectors.toInt ↔
      freeMap.freeList.length < sectorsFor fileSize := by
    rw [show (hdr.sized fileSize).numSectors.toInt = _ from toInt_sectorsFor fileSize]
    unfold sectorsFor
    omega
  rw [← count_sized hdr]
  exact if_congr (hfew.trans (by rw [count_sized])) rfl rfl

/-- `Allocate` fails when too few sectors are free, and otherwise takes the first free ones. -/
theorem allocate_ok (hdr : FileHeader) {freeMap : Bitmap} {fileSize : BitVec 32}
    (hbits : freeMap.numBits = Nachos.numSectors) (hsize : sectorsFor fileSize ≤ numDirect) :
    (freeMap.freeList.length < sectorsFor fileSize ∧
      ∃ hdr', hdr.allocate freeMap fileSize = .ok (false, hdr', freeMap)) ∨
    (sectorsFor fileSize ≤ freeMap.freeList.length ∧
      ∃ hdr' freeMap', hdr.allocate freeMap fileSize = .ok (true, hdr', freeMap') ∧
        hdr'.Fits ∧ hdr'.fileLength = fileSize.toInt ∧
        hdr'.sectors = freeMap.freeList.take (sectorsFor fileSize) ∧
        freeMap'.numBits = Nachos.numSectors ∧
        freeMap'.freeList = freeMap.freeList.drop (sectorsFor fileSize) ∧
        ∀ m, m ∈ freeMap'.marked ↔ m ∈ freeMap.marked ∨ m ∈ hdr'.sectors) := by
  rw [allocate_eq]
  split_ifs with hfew
  · exact .inl ⟨hfew, _, rfl⟩
  · have hroom : sectorsFor fileSize ≤ freeMap.freeList.length := not_lt.mp hfew
    refine .inr ⟨hroom, ?_⟩
    obtain ⟨hdr', freeMap', hloop, hbytes, hsectors, -, hafter, hbits', hfree', hmarked⟩ :=
      allocateLoop_ok (n := sectorsFor fileSize) (i := 0) (hdr.sized fileSize) rfl hroom
        (by omega) hbits
    have hcount : hdr'.count = sectorsFor fileSize := by
      rw [← count_sized hdr, count, hsectors]
      rfl
    have hlist : hdr'.sectors = freeMap.freeList.take (sectorsFor fileSize) := by
      apply sectors_eq
      · rw [hcount, List.length_take, Nat.min_eq_left hroom]
      · intro j hj
        rw [List.length_take] at hj
        rw [List.getD_eq_getElem?_getD, List.getElem?_take_of_lt (by omega),
          ← List.getD_eq_getElem?_getD, ← hafter j (by omega), Nat.zero_add]
    have hlength : hdr'.fileLength = fileSize.toInt := congrArg BitVec.toInt hbytes
    refine ⟨hdr', freeMap', ?_, ⟨hcount ▸ hsize, ?_⟩, hlength, hlist, hbits', hfree', ?_⟩
    · rw [hloop]
      rfl
    · rw [hlength, hcount]
      exact fits_sectorsFor fileSize
    · rw [hlist]
      exact hmarked

theorem deallocateLoop_ok (hdr : FileHeader) {n i : ℕ} {freeMap : Bitmap}
    (hi : i + n ≤ numDirect) (hbits : freeMap.numBits = Nachos.numSectors)
    (hmarked : ∀ j, i ≤ j → j < i + n → hdr.dataSector j ∈ freeMap.marked)
    (hinj : ∀ j k, i ≤ j → j < k → k < i + n → hdr.dataSector j ≠ hdr.dataSector k) :
    ∃ freeMap', hdr.deallocateLoop n i freeMap = .ok freeMap' ∧
      freeMap'.numBits = Nachos.numSectors ∧
      ∀ m, m ∈ freeMap'.marked ↔
        m ∈ freeMap.marked ∧ ∀ j, i ≤ j → j < i + n → m ≠ hdr.dataSector j := by
  -- on the rounds left; each clears a bit that is set, as no sector is listed twice
  induction n generalizing i freeMap with
  | zero =>
    refine ⟨freeMap, rfl, hbits, fun m => ⟨fun h => ⟨h, fun j h₁ h₂ => ?_⟩, And.left⟩⟩
    omega
  | succ n ih =>
    have hi' : i < numDirect := by omega
    have hmem := hmarked i le_rfl (by omega)
    have hlt : hdr.dataSector i < freeMap.numBits := (Bitmap.mem_marked.mp hmem).1
    have hint := toInt_dataSectors hi' (hbits ▸ hlt)
    have hclear : ∀ m, m ∈ (freeMap.clearBit (hdr.dataSector i)).marked ↔
        m ≠ hdr.dataSector i ∧ m ∈ freeMap.marked := by
      intro m
      rw [Bitmap.marked_clearBit _ hlt, Finset.mem_erase]
    have hbits₁ : (freeMap.clearBit (hdr.dataSector i)).numBits = Nachos.numSectors := hbits
    obtain ⟨freeMap', hloop, hbits', hrest⟩ := ih (i := i + 1) (by omega) hbits₁
      (fun j h₁ h₂ => (hclear _).mpr
        ⟨(hinj i j le_rfl (by omega) (by omega)).symm, hmarked j (by omega) (by omega)⟩)
      (fun j k h₁ h₂ h₃ => hinj j k (by omega) h₂ (by omega))
    refine ⟨freeMap', ?_, hbits', fun m => ?_⟩
    · rw [deallocateLoop, dif_pos hi', hint]
      dsimp only
      rw [PersistentBitmap.test_ok hmem, except_ok_bind, if_pos rfl,
        PersistentBitmap.clear_ok hlt, except_ok_bind]
      exact hloop
    · rw [hrest, hclear]
      constructor
      · rintro ⟨⟨hne, hm⟩, hall⟩
        refine ⟨hm, fun j h₁ h₂ => ?_⟩
        rcases Nat.eq_or_lt_of_le h₁ with rfl | hlt'
        · exact hne
        · exact hall j hlt' (by omega)
      · rintro ⟨hm, hall⟩
        exact ⟨⟨hall i le_rfl (by omega), hm⟩, fun j h₁ h₂ => hall j (by omega) (by omega)⟩

/-- `Deallocate` clears the data sectors, whose bits have to be set. -/
theorem deallocate_ok {hdr : FileHeader} {freeMap : Bitmap} (hv : hdr.Valid)
    (hbits : freeMap.numBits = Nachos.numSectors)
    (hmarked : ∀ n ∈ hdr.sectors, n ∈ freeMap.marked) :
    ∃ freeMap', hdr.deallocate freeMap = .ok freeMap' ∧
      freeMap'.numBits = Nachos.numSectors ∧
      ∀ m, m ∈ freeMap'.marked ↔ m ∈ freeMap.marked ∧ m ∉ hdr.sectors := by
  obtain ⟨freeMap', hloop, hbits', hrest⟩ := deallocateLoop_ok hdr (n := hdr.count)
    (i := 0) (by simpa using hv.count_le) hbits
    (fun j _ hj => hmarked _ (mem_sectors.mpr ⟨j, by omega, rfl⟩))
    (fun j k _ hjk hk he => by
      have := hv.dataSector_inj (by omega) (by omega) he
      omega)
  refine ⟨freeMap', hloop, hbits', fun m => ?_⟩
  rw [hrest]
  refine and_congr_right fun _ => ⟨fun h hm => ?_, fun h j _ hj he => h ?_⟩
  · obtain ⟨j, hj, rfl⟩ := mem_sectors.mp hm
    exact h j (by omega) (by omega) rfl
  · exact mem_sectors.mpr ⟨j, by omega, he.symm⟩

end FileHeader

/-- The table as it lies in memory. -/
structure Directory where
  table : Bytes

namespace Directory

def inUse (d : Directory) (i : ℕ) : Bool := d.table (entrySize * i) != 0

def sector (d : Directory) (i : ℕ) : BitVec 32 := wordAt d.table (entrySize * i + 4)

def name (d : Directory) (i : ℕ) : Bytes := shift d.table (entrySize * i + 8)

/-- `strncmp` finds no difference in the first `FileNameMaxLen` characters. -/
def sameName (a b : Bytes) : Bool := cString a fileNameMaxLen == cString b fileNameMaxLen

def new (junk : Bytes) : Directory :=
  ⟨(List.range numDirEntries).foldl (fun t i => Function.update t (entrySize * i) 0) junk⟩

def fetchFrom (d : Directory) (hdr : FileHeader) (disk : Bytes) : Except Fault Directory := do
  let r ← OpenFile.readAt hdr disk d.table directoryFileSize 0
  return ⟨r.2⟩

def writeBack (d : Directory) (hdr : FileHeader) (disk buf : Bytes) : Except Fault Bytes := do
  let r ← OpenFile.writeAt hdr disk d.table directoryFileSize 0 buf
  return r.2

/-- `none` stands for -1. -/
def findIndex (d : Directory) (name : Bytes) : Option ℕ :=
  (List.range numDirEntries).find? fun i => d.inUse i && sameName (d.name i) name

def find (d : Directory) (name : Bytes) : Int :=
  match d.findIndex name with
  | some i => (d.sector i).toInt
  | none => -1

/-- What `strncpy` writes: the name, filled up with NULs. -/
def paddedName (name : Bytes) : Bytes := fun j => (cString name fileNameMaxLen).getD j 0

def setEntry (d : Directory) (i : ℕ) (name : Bytes) (newSector : Int) : Directory :=
  let t := Function.update d.table (entrySize * i) 1
  let t := bcopy (paddedName name) t (entrySize * i + 8) fileNameMaxLen
  ⟨bcopy (byteOf (BitVec.ofInt 32 newSector)) t (entrySize * i + 4) 4⟩

/-- `none` stands for `FALSE`. -/
def add (d : Directory) (name : Bytes) (newSector : Int) : Option Directory :=
  if (d.findIndex name).isSome then none
  else ((List.range numDirEntries).find? fun i => !d.inUse i).map fun i =>
    d.setEntry i name newSector

def remove (d : Directory) (name : Bytes) : Option Directory :=
  (d.findIndex name).map fun i => ⟨Function.update d.table (entrySize * i) 0⟩

/-- The characters of a name that the directory looks at. -/
def key (name : Bytes) : List UInt8 := cString name fileNameMaxLen

/-- A slot in use: the sector of the header and the name. -/
def entry (d : Directory) (i : ℕ) : Option (ℕ × List UInt8) :=
  if i < numDirEntries ∧ d.inUse i then some ((d.sector i).toNat, key (d.name i)) else none

theorem entry_congr {d d' : Directory} {i : ℕ}
    (h : ∀ k < entrySize, d.table (entrySize * i + k) = d'.table (entrySize * i + k)) :
    d.entry i = d'.entry i := by
  have hinUse : d.inUse i = d'.inUse i := congrArg (· != 0) (h 0 (by decide))
  have hsector : d.sector i = d'.sector i := wordAt_congr fun k hk => by
    rw [Nat.add_assoc, h (4 + k) (by unfold entrySize; omega)]
  have hname : key (d.name i) = key (d'.name i) := cString_congr fun j hj => by
    unfold fileNameMaxLen at hj
    unfold name shift
    rw [Nat.add_assoc, h (8 + j) (by unfold entrySize; omega)]
  rw [entry, hinUse, hsector, hname, ← entry]

theorem entry_eq_of_table {d d' : Directory}
    (h : ∀ k < directoryFileSize, d.table k = d'.table k) (i : ℕ) : d.entry i = d'.entry i := by
  by_cases hi : i < numDirEntries
  · refine entry_congr fun k hk => h _ ?_
    unfold directoryFileSize
    unfold entrySize at *
    unfold numDirEntries at *
    omega
  · rw [entry, entry, if_neg fun h => hi h.1, if_neg fun h => hi h.1]

theorem foldl_clear (junk : Bytes) {n i : ℕ} (hi : i < n) :
    (List.range n).foldl (fun t i => Function.update t (entrySize * i) 0) junk (entrySize * i) =
      0 := by
  induction n with
  | zero => omega
  | succ n ih =>
    rw [List.range_succ, List.foldl_append, List.foldl_cons, List.foldl_nil]
    by_cases hn : i = n
    · rw [hn, Function.update_self]
    · have hne : entrySize * i ≠ entrySize * n := by
        unfold entrySize
        omega
      rw [Function.update_of_ne hne, ih (by omega)]

theorem entry_of_zero {d : Directory} {i : ℕ}
    (h : i < numDirEntries → d.table (entrySize * i) = 0) : d.entry i = none := by
  refine if_neg fun ⟨hi, hused⟩ => ?_
  rw [inUse, h hi] at hused
  exact absurd hused (by decide)

theorem entry_new (junk : Bytes) (i : ℕ) : (new junk).entry i = none :=
  entry_of_zero (foldl_clear junk)

variable {d : Directory} {name : Bytes}

theorem matches_iff {i : ℕ} (hi : i < numDirEntries) :
    (d.inUse i && sameName (d.name i) name) = true ↔ ∃ s, d.entry i = some (s, key name) := by
  unfold sameName entry key
  by_cases hu : d.inUse i = true
  · simp [hi, hu]
  · simp [hu]

theorem findIndex_some {i : ℕ} (h : d.findIndex name = some i) :
    i < numDirEntries ∧ ∃ s, d.entry i = some (s, key name) := by
  have hi : i < numDirEntries := List.mem_range.mp (List.mem_of_find?_eq_some h)
  have hp := List.find?_some h
  exact ⟨hi, (matches_iff hi).mp hp⟩

theorem findIndex_none (h : d.findIndex name = none) (i s : ℕ) :
    d.entry i ≠ some (s, key name) := by
  intro he
  have hi : i < numDirEntries := by
    by_contra hi
    rw [entry, if_neg fun h => hi h.1] at he
    cases he
  have hp := List.find?_eq_none.mp h i (List.mem_range.mpr hi)
  exact hp ((matches_iff hi).mpr ⟨s, he⟩)

theorem findIndex_congr {d' : Directory} (h : ∀ i, d.entry i = d'.entry i) (name : Bytes) :
    d.findIndex name = d'.findIndex name := by
  refine List.find?_congr fun i hi => ?_
  rw [Bool.eq_iff_iff, matches_iff (List.mem_range.mp hi), matches_iff (List.mem_range.mp hi), h]

theorem sector_of_entry {i s : ℕ} {nm : List UInt8} (h : d.entry i = some (s, nm))
    (hs : s < numSectors) : (d.sector i).toInt = s := by
  unfold entry at h
  split_ifs at h
  have hnat : (d.sector i).toNat = s := congrArg Prod.fst (Option.some.inj h)
  rw [BitVec.toInt_eq_toNat_of_lt, hnat]
  rw [hnat]
  exact lt_of_lt_of_le (Nat.mul_lt_mul_of_pos_left hs (by decide)) (by decide)

theorem find_of_none (h : d.findIndex name = none) : d.find name = -1 := by
  rw [find, h]

theorem find_of_entry {i s : ℕ} {nm : List UInt8} (h : d.findIndex name = some i)
    (he : d.entry i = some (s, nm)) (hs : s < numSectors) : d.find name = s := by
  rw [find, h]
  exact sector_of_entry he hs

theorem entry_setEntry {i : ℕ} (hi : i < numDirEntries) (d : Directory) (name : Bytes) {s : ℕ}
    (hs : s < numSectors) (j : ℕ) :
    (d.setEntry i name s).entry j = if j = i then some (s, key name) else d.entry j := by
  split_ifs with hj
  · subst hj
    have hused : (d.setEntry j name s).inUse j = true := by
      unfold inUse setEntry
      dsimp only
      rw [bcopy_outside (by omega), bcopy_outside (by omega), Function.update_self]
      rfl
    have hsector : (d.setEntry j name s).sector j = BitVec.ofInt 32 s :=
      wordAt_of_bytes fun k hk => bcopy_inside hk
    have hname : key ((d.setEntry j name s).name j) = key name := by
      refine cString_of_getD fun k hk => ?_
      unfold Directory.name setEntry shift
      dsimp only
      rw [bcopy_outside (by omega), bcopy_inside hk, paddedName]
    rw [entry, if_pos ⟨hi, hused⟩, hsector, hname, BitVec.ofInt_natCast, BitVec.toNat_ofNat,
      Nat.mod_eq_of_lt (lt_trans hs (by decide))]
  · refine entry_congr fun k hk => ?_
    unfold setEntry
    unfold fileNameMaxLen entrySize at *
    dsimp only
    rw [bcopy_outside (by omega), bcopy_outside (by omega), Function.update_of_ne (by omega)]

/-- `Add` takes a slot that is not in use, unless the name is there already or no slot is
left. -/
theorem add_cases (d : Directory) (name : Bytes) {s : ℕ} (hs : s < numSectors) :
    (d.add name s = none ∧
      ((∃ j t, d.entry j = some (t, key name)) ∨ ∀ j < numDirEntries, d.entry j ≠ none)) ∨
    ∃ i d', d.add name s = some d' ∧ (∀ j t, d.entry j ≠ some (t, key name)) ∧
      i < numDirEntries ∧ d.entry i = none ∧
      ∀ j, d'.entry j = if j = i then some (s, key name) else d.entry j := by
  unfold add
  split_ifs with hfound
  · obtain ⟨j, hj⟩ := Option.isSome_iff_exists.mp hfound
    exact .inl ⟨rfl, .inl ⟨j, (findIndex_some hj).2⟩⟩
  · cases hslot : (List.range numDirEntries).find? (fun i => !d.inUse i) with
    | none =>
      refine .inl ⟨rfl, .inr fun j hj => ?_⟩
      have hused := List.find?_eq_none.mp hslot j (List.mem_range.mpr hj)
      rw [entry, if_pos ⟨hj, by simpa using hused⟩]
      exact Option.some_ne_none _
    | some i =>
      have hi : i < numDirEntries := List.mem_range.mp (List.mem_of_find?_eq_some hslot)
      have hunused : ¬d.inUse i = true := by simpa using List.find?_some hslot
      have hnone : d.findIndex name = none := by simpa using hfound
      exact .inr ⟨i, _, rfl, findIndex_none hnone, hi, if_neg fun h => hunused h.2,
        entry_setEntry hi d name hs⟩

theorem entry_remove {i : ℕ} (h : d.findIndex name = some i) :
    ∃ d', d.remove name = some d' ∧ ∀ j, d'.entry j = if j = i then none else d.entry j := by
  refine ⟨_, by rw [remove, h]; rfl, fun j => ?_⟩
  split_ifs with hj
  · subst hj
    exact entry_of_zero fun _ => Function.update_self ..
  · refine entry_congr fun k hk => Function.update_of_ne ?_ _ _
    unfold entrySize at *
    omega

section OnDisk
variable {hdr : FileHeader} (hv : hdr.Valid) (hlen : hdr.fileLength = directoryFileSize)
  (disk : Bytes)
include hv hlen

theorem fetchFrom_ok (d : Directory) :
    ∃ d', d.fetchFrom hdr disk = .ok d' ∧ ∀ i, d'.entry i = entry ⟨hdr.byte disk⟩ i := by
  refine ⟨⟨bcopy (hdr.byte disk) d.table 0 directoryFileSize⟩, ?_, ?_⟩
  · rw [fetchFrom, OpenFile.readWhole_ok hv disk hlen]
    rfl
  · exact entry_eq_of_table fun k hk => bcopy_start hk

theorem writeBack_ok (d : Directory) (buf : Bytes) :
    ∃ disk', d.writeBack hdr disk buf = .ok disk' ∧
      (∀ i, entry ⟨hdr.byte disk'⟩ i = d.entry i) ∧
      ∀ m, m ∉ hdr.sectors → Filesys.sector disk' m = Filesys.sector disk m := by
  obtain ⟨disk', hwrite, hframe, hbyte⟩ := OpenFile.writeWhole_ok hv disk hlen d.table buf
  refine ⟨disk', ?_, entry_eq_of_table hbyte, hframe⟩
  rw [writeBack, hwrite]
  rfl

end OnDisk
end Directory

/-- The two files that are left open while Nachos runs. -/
structure FileSystem where
  freeMapFile : OpenFile
  directoryFile : OpenFile

/-- What the blocks hold that the calls of `new` return, one after the other. -/
abbrev Junk := ℕ → Bytes

namespace FileSystem

def mustAllocate (junk : Bytes) (freeMap : Bitmap) (size : ℕ) :
    Except Fault (FileHeader × Bitmap) := do
  let r ← (FileHeader.ofBytes junk).allocate freeMap (BitVec.ofNat 32 size)
  if r.1 then .ok r.2 else .error .format

def format (disk : Bytes) (junk : Junk) : Except Fault (FileSystem × Bytes) := do
  let directory := Directory.new (junk 0)
  let freeMap ← PersistentBitmap.mark (Bitmap.new numSectors) freeMapSector
  let freeMap ← PersistentBitmap.mark freeMap directorySector
  let (mapHdr, freeMap) ← mustAllocate (junk 1) freeMap freeMapFileSize
  let (dirHdr, freeMap) ← mustAllocate (junk 2) freeMap directoryFileSize
  let disk ← mapHdr.writeBack disk freeMapSector
  let disk ← dirHdr.writeBack disk directorySector
  let freeMapFile ← OpenFile.new disk freeMapSector
  let directoryFile ← OpenFile.new disk directorySector
  let disk ← PersistentBitmap.writeBack freeMap freeMapFile.hdr disk (junk 3)
  let disk ← directory.writeBack directoryFile.hdr disk (junk 4)
  return (⟨freeMapFile, directoryFile⟩, disk)

def mount (disk : Bytes) : Except Fault FileSystem := do
  let freeMapFile ← OpenFile.new disk freeMapSector
  let directoryFile ← OpenFile.new disk directorySector
  return ⟨freeMapFile, directoryFile⟩

/-- The end of `Create`, with the header sector found and the name added. -/
def store (fs : FileSystem) (disk : Bytes) (directory : Directory) (freeMap : Bitmap)
    (sector : Int) (initialSize : BitVec 32) (junk : Junk) : Except Fault (Bool × Bytes) := do
  let (success, hdr, freeMap) ← (FileHeader.ofBytes (junk 1)).allocate freeMap initialSize
  if success then do
    let disk ← hdr.writeBack disk sector
    let disk ← directory.writeBack fs.directoryFile.hdr disk (junk 2)
    let disk ← PersistentBitmap.writeBack freeMap fs.freeMapFile.hdr disk (junk 3)
    return (true, disk)
  else return (false, disk)

def create (fs : FileSystem) (disk name : Bytes) (initialSize : BitVec 32) (junk : Junk) :
    Except Fault (Bool × Bytes) := do
  let directory ← (Directory.new (junk 0)).fetchFrom fs.directoryFile.hdr disk
  if directory.find name ≠ -1 then return (false, disk)
  else do
    let (freeMap, sector) := (← PersistentBitmap.new fs.freeMapFile.hdr disk).findAndSet
    if sector = -1 then return (false, disk)
    else
      match directory.add name sector with
      | none => return (false, disk)
      | some directory => fs.store disk directory freeMap sector initialSize junk

/-- `FileSystem::Open`; `none` is `NULL`. -/
def openFile (fs : FileSystem) (disk name : Bytes) (junk : Junk) :
    Except Fault (Option OpenFile) := do
  let directory ← (Directory.new (junk 0)).fetchFrom fs.directoryFile.hdr disk
  let sector := directory.find name
  if 0 ≤ sector then return some (← OpenFile.new disk sector) else return none

def remove (fs : FileSystem) (disk name : Bytes) (junk : Junk) : Except Fault (Bool × Bytes) := do
  let directory ← (Directory.new (junk 0)).fetchFrom fs.directoryFile.hdr disk
  let sector := directory.find name
  if sector = -1 then return (false, disk)
  else do
    let fileHdr ← FileHeader.fetchFrom disk sector
    let freeMap ← PersistentBitmap.new fs.freeMapFile.hdr disk
    let freeMap ← fileHdr.deallocate freeMap
    let freeMap ← PersistentBitmap.clear freeMap sector
    let directory := (directory.remove name).getD directory
    let disk ← PersistentBitmap.writeBack freeMap fs.freeMapFile.hdr disk (junk 1)
    let disk ← directory.writeBack fs.directoryFile.hdr disk (junk 2)
    return (true, disk)

end FileSystem
end Nachos.Filesys
