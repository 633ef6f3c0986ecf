import Nachos.HeaderBounds
import Nachos.OpenFiles
import Nachos.Lib.NamedFiles
import Nachos.Lib.Traces

namespace Nachos.Filesys
open Buffers TwosComplement Programs NamedFiles Traces
open FileHeader (onDisk sectorsFor)

inductive Request where
  | mount
  | create (name : Bytes) (initialSize : BitVec 32) (junk : Junk)
  | remove (name : Bytes) (junk : Junk)
  | openFile (name : Bytes) (junk : Junk)
  | read (k : ℕ) (into : Bytes) (numBytes : BitVec 32)
  | write (k : ℕ) (source : Bytes) (numBytes : BitVec 32) (junk : Bytes)
  | seek (k : ℕ) (position : BitVec 32)
  | length (k : ℕ)

inductive Reply where
  | done
  | success (b : Bool)
  | handle (k : Option ℕ)
  | bytes (bs : List UInt8)
  | count (n : Int)

/-- A running system: the disk, the file system and the files that are open. -/
structure Session where
  disk : Bytes
  fs : FileSystem
  opened : List Opened

namespace Session

def serve (s : Session) : Request → Except Fault (Reply × Session)
  | .mount => do
    let fs ← FileSystem.mount s.disk
    return (.done, { s with fs, opened := [] })
  | .create name initialSize junk => do
    let (r, disk) ← s.fs.create s.disk name initialSize junk
    return (.success r, { s with disk })
  | .remove name junk => do
    let (r, disk) ← s.fs.remove s.disk name junk
    let forget := Opened.forget ((directoryOn s.disk).find name)
    return (.success r, { s with disk, opened := if r then s.opened.map forget else s.opened })
  | .openFile name junk => do
    match ← s.fs.openFile s.disk name junk with
    | none => return (.handle none, s)
    | some file =>
      let o : Opened := ⟨file, (directoryOn s.disk).find name, false⟩
      return (.handle (some s.opened.length), { s with opened := s.opened ++ [o] })
  | .read k into numBytes =>
    match s.opened[k]? with
    | none => .error .undefined
    | some o => do
      let (bs, file) ← o.file.read s.disk into numBytes.toInt
      return (.bytes bs, { s with opened := s.opened.set k { o with file } })
  | .write k source numBytes junk =>
    match s.opened[k]? with
    | none => .error .undefined
    | some o => do
      let (n, file, disk) ← o.file.write s.disk source numBytes.toInt junk
      return (.count n, { s with disk, opened := s.opened.set k { o with file } })
  | .seek k position =>
    match s.opened[k]? with
    | none => .error .undefined
    | some o =>
      let file := o.file.seek position.toInt
      .ok (.done, { s with opened := s.opened.set k { o with file } })
  | .length k =>
    match s.opened[k]? with
    | none => .error .undefined
    | some o => .ok (.count o.file.length, s)

/-- What a program has to see to: a new file fits one header, a handle is one that it got, a
position is not negative, the end of a transfer is an `int`, and nothing is written to a file
that has been removed. -/
def Allowed (s : Session) : Request → Prop
  | .create _ initialSize _ => 0 ≤ initialSize.toInt ∧ initialSize.toInt ≤ maxFileSize
  | .read k _ numBytes => ∃ o, s.opened[k]? = some o ∧
      o.file.seekPosition + numBytes.toInt ≤ intMax
  | .write k _ numBytes _ => ∃ o, s.opened[k]? = some o ∧ o.removed = false ∧
      o.file.seekPosition + numBytes.toInt ≤ intMax
  | .seek k position => k < s.opened.length ∧ 0 ≤ position.toInt
  | .length k => k < s.opened.length
  | _ => True

/-- An allowed request is made and answered. -/
def Step (s : Session) (l : Request × Reply) (s' : Session) : Prop :=
  s.Allowed l.1 ∧ s.serve l.1 = .ok (l.2, s')

def state (s : Session) : State := ⟨s.disk, some s.fs, s.opened, none, none⟩

end Session

abbrev Name := List UInt8

def blocks (length : ℕ) : ℕ := (length + (sectorSize - 1)) / sectorSize

def fileSectors (length : ℕ) : ℕ := 1 + blocks length

/-- The sectors in use: five for the free map and the directory, and those of the files. -/
def sectorsUsed (v : Volume Name UInt8) : ℕ := 5 + v.total fileSectors

/-- There is room for a new file. -/
def Room (v : Volume Name UInt8) (nm : Name) (length : ℕ) : Prop :=
  nm ∉ v.names ∧ v.names.card < numDirEntries ∧
    sectorsUsed v + fileSectors length ≤ numSectors

def given (source : Bytes) (numBytes : BitVec 32) : List UInt8 :=
  (List.range numBytes.toInt.toNat).map source

/-- How a volume answers.  What a new file contains is not said, nor what is read through the
handle of a file that has been removed. -/
inductive Answers (v : Volume Name UInt8) : Request × Reply → Volume Name UInt8 → Prop
  | mounted : Answers v (.mount, .done) { v with handles := [] }
  | created {name : Bytes} {size : BitVec 32} {junk : Junk} (data : List UInt8)
      (hroom : Room v (Directory.key name) data.length) (hsize : (data.length : Int) = size.toInt) :
      Answers v (.create name size junk, .success true) (v.put (Directory.key name) data)
  | notCreated {name : Bytes} {size : BitVec 32} {junk : Junk}
      (hfull : ¬Room v (Directory.key name) size.toInt.toNat) :
      Answers v (.create name size junk, .success false) v
  | removed {name : Bytes} {junk : Junk} (hmem : Directory.key name ∈ v.names) :
      Answers v (.remove name junk, .success true) (v.erase (Directory.key name))
  | notRemoved {name : Bytes} {junk : Junk} (hmem : Directory.key name ∉ v.names) :
      Answers v (.remove name junk, .success false) v
  | opened {name : Bytes} {junk : Junk} (hmem : Directory.key name ∈ v.names) :
      Answers v (.openFile name junk, .handle (some v.handles.length))
        { v with handles := v.handles ++ [⟨some (Directory.key name), 0⟩] }
  | notOpened {name : Bytes} {junk : Junk} (hmem : Directory.key name ∉ v.names) :
      Answers v (.openFile name junk, .handle none) v
  | read {k p : ℕ} {into : Bytes} {numBytes : BitVec 32} {nm : Name} {data bs : List UInt8}
      (hhandle : v.handles[k]? = some ⟨some nm, p⟩) (hfile : v.files nm = some data)
      (hbytes : bs = (data.drop p).take numBytes.toInt.toNat) :
      Answers v (.read k into numBytes, .bytes bs) (v.move k ⟨some nm, p + bs.length⟩)
  | readRemoved {k p : ℕ} {into : Bytes} {numBytes : BitVec 32} (bs : List UInt8)
      (hhandle : v.handles[k]? = some ⟨none, p⟩) :
      Answers v (.read k into numBytes, .bytes bs) (v.move k ⟨none, p + bs.length⟩)
  | wrote {k p n : ℕ} {source junk : Bytes} {numBytes : BitVec 32} {nm : Name} {data : List UInt8}
      (hhandle : v.handles[k]? = some ⟨some nm, p⟩) (hfile : v.files nm = some data)
      (hcount : n = ((given source numBytes).take (data.length - p)).length) :
      Answers v (.write k source numBytes junk, .count n)
        ((v.put nm (overwrite data p (given source numBytes))).move k ⟨some nm, p + n⟩)
  | sought {k : ℕ} {position : BitVec 32} {h : Handle Name} (hhandle : v.handles[k]? = some h) :
      Answers v (.seek k position, .done) (v.move k { h with position := position.toInt.toNat })
  | length {k p : ℕ} {nm : Name} {data : List UInt8} (hhandle : v.handles[k]? = some ⟨some nm, p⟩)
      (hfile : v.files nm = some data) : Answers v (.length k, .count data.length) v
  | lengthRemoved {k p : ℕ} (n : Int) (hhandle : v.handles[k]? = some ⟨none, p⟩) :
      Answers v (.length k, .count n) v

def contents (disk : Bytes) (n : ℕ) : List UInt8 :=
  let hdr := onDisk disk n
  (List.range hdr.fileLength.toNat).map (hdr.byte disk)

theorem length_contents (disk : Bytes) (n : ℕ) :
    (contents disk n).length = (onDisk disk n).fileLength.toNat := by
  rw [contents, List.length_map, List.length_range]

theorem getElem?_contents {disk : Bytes} {n k : ℕ} (hk : k < (contents disk n).length) :
    (contents disk n)[k]? = some ((onDisk disk n).byte disk k) := by
  rw [length_contents] at hk
  rw [contents, List.getElem?_map, List.getElem?_range hk]
  rfl

theorem contents_congr {disk disk' : Bytes} {n : ℕ} (hheader : sector disk' n = sector disk n)
    (hbyte : ∀ k : ℕ, (k : Int) < (onDisk disk n).fileLength →
      (onDisk disk n).byte disk' k = (onDisk disk n).byte disk k) :
    contents disk' n = contents disk n := by
  unfold contents
  rw [onDisk_congr hheader]
  apply List.map_congr_left
  intro k hk
  rw [List.mem_range] at hk
  exact hbyte k (by omega)

theorem read_contents {disk : Bytes} {n : ℕ} (into : Bytes) {numBytes position : Int}
    (hpos : 0 ≤ position) :
    (List.range (OpenFile.transferred (onDisk disk n) numBytes position)).map
        (bcopy (fun j => (onDisk disk n).byte disk (position.toNat + j)) into 0
          (OpenFile.transferred (onDisk disk n) numBytes position)) =
      ((contents disk n).drop position.toNat).take numBytes.toNat := by
  have ht : OpenFile.transferred (onDisk disk n) numBytes position =
      min numBytes.toNat ((contents disk n).length - position.toNat) := by
    rw [length_contents, OpenFile.transferred]
    omega
  rw [ht]
  apply List.ext_getElem?
  intro k
  by_cases hk : k < min numBytes.toNat ((contents disk n).length - position.toNat)
  · rw [List.getElem?_map, List.getElem?_range hk, Option.map_some, bcopy_start hk,
      List.getElem?_take_of_lt (by omega), List.getElem?_drop, getElem?_contents (by omega)]
  · rw [List.getElem?_eq_none (by rw [List.length_map, List.length_range]; omega),
      List.getElem?_eq_none (by rw [List.length_take, List.length_drop]; omega)]

theorem write_contents {disk disk' : Bytes} {n : ℕ} (hheader : sector disk' n = sector disk n)
    (source : Bytes) (numBytes : BitVec 32) {position : Int}
    (hbyte : ∀ k : ℕ, (k : Int) < (onDisk disk n).fileLength →
      (onDisk disk n).byte disk' k =
        if position.toNat ≤ k ∧ k < position.toNat +
          OpenFile.transferred (onDisk disk n) numBytes.toInt position then
          source (k - position.toNat)
        else (onDisk disk n).byte disk k) (hpos : 0 ≤ position) :
    contents disk' n = overwrite (contents disk n) position.toNat (given source numBytes) := by
  have hlen : (contents disk' n).length = (contents disk n).length := by
    rw [length_contents, length_contents, onDisk_congr hheader]
  have hgiven : (given source numBytes).length = numBytes.toInt.toNat := by
    rw [given, List.length_map, List.length_range]
  apply List.ext_getElem?
  intro k
  by_cases hk : k < (contents disk n).length
  · rw [getElem?_contents (by omega), getElem?_overwrite _ _ _ hk, onDisk_congr hheader]
    rw [length_contents] at hk
    have hin : (position.toNat ≤ k ∧ k < position.toNat +
        OpenFile.transferred (onDisk disk n) numBytes.toInt position) ↔
        position.toNat ≤ k ∧ k < position.toNat + (given source numBytes).length := by
      rw [hgiven, OpenFile.transferred]
      omega
    rw [hbyte k (by omega), if_congr hin rfl rfl]
    split_ifs with hreq
    · rw [given, List.getElem?_map, List.getElem?_range (by omega)]
      rfl
    · rw [getElem?_contents (by rw [length_contents]; exact hk)]
  · rw [List.getElem?_eq_none (by omega), List.getElem?_eq_none (by rw [length_overwrite]; omega)]

/-- A change to one slot of the directory leaves the contents of the files as they are. -/
theorem Saved.contents {fs : FileSystem} {disk disk' : Bytes} {i : ℕ}
    {e : Option (ℕ × List UInt8)} (hs : Sound fs disk) (h : Saved disk disk' i e) {j n : ℕ}
    {nm : Name} (hj : (directoryOn disk).entry j = some (n, nm)) :
    contents disk' n = contents disk n := by
  have hslot := headerSector_slot hj
  apply contents_congr (h.header hs hslot)
  intro k hk
  have hfits := (hs.fits _ n hslot).fits
  apply byte_congr (by zify; omega)
  intro m hm
  have hmem := data_mem hslot hm
  apply h.sector_eq
  · intro f hf hmf
    exact hf j (hs.consistent.exclusive.eq_of_mem hmf hmem)
  · intro nm' he
    exact h.fresh m nm' he (hs.mem_marked hmem)

theorem sectorsFor_eq_blocks {size : BitVec 32} (h : 0 ≤ size.toInt) :
    sectorsFor size = blocks size.toInt.toNat := by
  have hdiv := Int.mul_tdiv_add_tmod size.toInt sectorSize
  have hlow := Int.tmod_nonneg (sectorSize : Int) h
  have hhigh := Int.tmod_lt_of_pos size.toInt (show (0 : Int) < sectorSize by decide)
  unfold sectorsFor divRoundUpInt blocks
  unfold sectorSize at *
  split_ifs <;> omega

theorem length_sectors (hdr : FileHeader) : hdr.sectors.length = hdr.count := by
  rw [FileHeader.sectors, List.length_map, List.length_range]

theorem length_freeList_add (disk : Bytes) :
    (freeMapOn disk).freeList.length + (freeMapOn disk).marked.card = numSectors := by
  have hle := (freeMapOn disk).marked_card_le
  have hbits : (freeMapOn disk).numBits = numSectors := rfl
  rw [Bitmap.length_freeList, Bitmap.numClear_eq, hbits]
  omega

section Created
variable {disk disk' name : Bytes} {size : BitVec 32} {i n : ℕ}
  (h : Created disk disk' name size i n) (hsize : 0 ≤ size.toInt)
include h hsize

theorem Created.count :
    (onDisk disk' n).count = blocks size.toInt.toNat ∧
      fileSectors size.toInt.toNat ≤ (freeMapOn disk).freeList.length := by
  have hlen := congrArg List.length h.sectors
  rw [List.length_cons, length_sectors, List.length_take, sectorsFor_eq_blocks hsize] at hlen
  have hfits := h.fits.fits
  rw [h.length] at hfits
  unfold fileSectors
  unfold blocks at *
  unfold sectorSize at *
  omega

theorem Created.card :
    (freeMapOn disk').marked.card =
      (freeMapOn disk).marked.card + fileSectors size.toInt.toNat := by
  have hnodup : (n :: (onDisk disk' n).sectors).Nodup := by
    rw [h.sectors]
    exact (freeMapOn disk).nodup_freeList.sublist (List.take_sublist ..)
  have hunion : (freeMapOn disk').marked =
      (freeMapOn disk).marked ∪ (n :: (onDisk disk' n).sectors).toFinset := by
    ext m
    rw [h.marked, Finset.mem_union, List.mem_toFinset]
  rw [hunion, Finset.card_union_of_disjoint, List.toFinset_card_of_nodup hnodup, List.length_cons,
    length_sectors, (h.count hsize).1, fileSectors, Nat.add_comm 1]
  rw [Finset.disjoint_left]
  intro m hm hnew
  rw [List.mem_toFinset, ← h.sectorsOf] at hnew
  exact h.free hnew hm

end Created

theorem Removed.card {fs : FileSystem} {disk disk' : Bytes} {i n : ℕ} {nm : Name}
    (hs : Sound fs disk) (h : Removed disk disk' i)
    (hentry : (directoryOn disk).entry i = some (n, nm)) :
    (freeMapOn disk').marked.card + (1 + (onDisk disk n).count) =
      (freeMapOn disk).marked.card := by
  have hslot := sectorsOf_eq (headerSector_slot hentry)
  have hnodup := hs.consistent.exclusive.nodup (.slot i)
  have hsub : (sectorsOf disk (.slot i)).toFinset ⊆ (freeMapOn disk).marked := by
    intro m hm
    exact hs.mem_marked (List.mem_toFinset.mp hm)
  have hdiff : (freeMapOn disk').marked =
      (freeMapOn disk).marked \ (sectorsOf disk (.slot i)).toFinset := by
    ext m
    rw [h.marked, Finset.mem_sdiff, List.mem_toFinset]
  have hcard := Finset.card_sdiff_add_card_eq_card hsub
  rw [List.toFinset_card_of_nodup hnodup, hslot, List.length_cons, length_sectors] at hcard
  rw [hdiff, hslot]
  omega

structure Refers (disk : Bytes) (o : Opened) (h : Handle Name) : Prop where
  position : o.file.seekPosition = h.position
  removed : o.removed = true → h.name = none
  live : o.removed = false → ∃ i n nm, (directoryOn disk).entry i = some (n, nm) ∧
    o.sector = n ∧ h.name = some nm

structure Shows (s : Session) (v : Volume Name UInt8) : Prop where
  inv : s.state.OpenInv
  files : ∀ nm data, v.files nm = some data ↔
    ∃ i n, (directoryOn s.disk).entry i = some (n, nm) ∧ data = contents s.disk n
  lengths : ∀ i n nm, (directoryOn s.disk).entry i = some (n, nm) →
    0 ≤ (onDisk s.disk n).fileLength ∧
      (onDisk s.disk n).count = blocks (contents s.disk n).length
  used : (freeMapOn s.disk).marked.card = sectorsUsed v
  handles : List.Forall₂ (Refers s.disk) s.opened v.handles

namespace Shows
variable {s : Session} {v : Volume Name UInt8} (h : Shows s v)
include h

theorem sound : Sound s.fs s.disk := h.inv.inv.sound s.fs rfl

theorem mem_names {nm : Name} :
    nm ∈ v.names ↔ ∃ i n, (directoryOn s.disk).entry i = some (n, nm) := by
  rw [v.mem_names, Option.isSome_iff_exists]
  constructor
  · rintro ⟨data, hdata⟩
    obtain ⟨i, n, hentry, -⟩ := (h.files nm data).mp hdata
    exact ⟨i, n, hentry⟩
  · rintro ⟨i, n, hentry⟩
    exact ⟨contents s.disk n, (h.files nm _).mpr ⟨i, n, hentry, rfl⟩⟩

theorem card_names :
    v.names.card = ((Finset.range numDirEntries).filter
      fun i => ((directoryOn s.disk).entry i).isSome).card := by
  have himage : v.names = ((Finset.range numDirEntries).filter
      fun i => ((directoryOn s.disk).entry i).isSome).image
        fun i => (((directoryOn s.disk).entry i).getD (0, [])).2 := by
    ext nm
    rw [h.mem_names, Finset.mem_image]
    constructor
    · rintro ⟨i, n, hentry⟩
      refine ⟨i, Finset.mem_filter.mpr ⟨?_, by rw [hentry]; rfl⟩, by rw [hentry]; rfl⟩
      rw [Finset.mem_range]
      by_contra hi
      rw [Directory.entry, if_neg fun hc => hi hc.1] at hentry
      cases hentry
    · rintro ⟨i, hi, rfl⟩
      obtain ⟨⟨n, nm⟩, hentry⟩ := Option.isSome_iff_exists.mp (Finset.mem_filter.mp hi).2
      exact ⟨i, n, by rw [hentry]; rfl⟩
  rw [himage]
  apply Finset.card_image_of_injOn
  intro i hi j hj hij
  obtain ⟨⟨n, nm⟩, hi⟩ := Option.isSome_iff_exists.mp (Finset.mem_filter.mp hi).2
  obtain ⟨⟨m, nm'⟩, hj⟩ := Option.isSome_iff_exists.mp (Finset.mem_filter.mp hj).2
  dsimp only at hij
  rw [hi, hj] at hij
  obtain rfl : nm = nm' := hij
  exact h.sound.consistent.names i j n m nm hi hj

theorem card_lt_iff :
    v.names.card < numDirEntries ↔
      ∃ i < numDirEntries, (directoryOn s.disk).entry i = none := by
  rw [h.card_names]
  constructor
  · intro hlt
    by_contra! hall
    rw [Finset.filter_true_of_mem, Finset.card_range] at hlt
    · exact lt_irrefl _ hlt
    · intro i hi
      exact Option.isSome_iff_ne_none.mpr (hall i (Finset.mem_range.mp hi))
  · rintro ⟨i, hi, hnone⟩
    have hss : ((Finset.range numDirEntries).filter
        fun i => ((directoryOn s.disk).entry i).isSome) ⊂ Finset.range numDirEntries := by
      rw [Finset.filter_ssubset]
      exact ⟨i, Finset.mem_range.mpr hi, by rw [hnone]; simp⟩
    simpa using Finset.card_lt_card hss

theorem freeList_length :
    (freeMapOn s.disk).freeList.length + sectorsUsed v = numSectors := by
  rw [← h.used]
  exact length_freeList_add s.disk

end Shows

/-- The request is answered, as the volume answers it. -/
def Meets (s : Session) (v : Volume Name UInt8) (r : Request) : Prop :=
  ∃ reply s' v', s.serve r = .ok (reply, s') ∧ Answers v (r, reply) v' ∧ Shows s' v'

theorem State.OpenInv.session {t : State} {fs : FileSystem} (h : t.OpenInv) (hfs : t.fs = some fs) :
    (Session.state ⟨t.disk, fs, t.opened⟩).OpenInv := by
  refine ⟨⟨rfl, fun fs' hfs' => ?_⟩, h.opened, fun hnone => absurd hnone (by simp [Session.state])⟩
  exact h.inv.sound fs' (hfs.trans hfs')

theorem Refers.mono {disk disk' : Bytes} {o : Opened} {h : Handle Name} (hr : Refers disk o h)
    (hkeep : ∀ i n nm, (directoryOn disk).entry i = some (n, nm) → o.sector = n →
      (directoryOn disk').entry i = some (n, nm)) : Refers disk' o h := by
  refine ⟨hr.position, hr.removed, fun hlive => ?_⟩
  obtain ⟨i, n, nm, hentry, hsector, hname⟩ := hr.live hlive
  exact ⟨i, n, nm, hkeep i n nm hentry hsector, hsector, hname⟩

namespace Shows
variable {s : Session} {v : Volume Name UInt8} (h : Shows s v)
include h

theorem slot_of_header {i j n : ℕ} {nm nm' : Name}
    (hi : (directoryOn s.disk).entry i = some (n, nm))
    (hj : (directoryOn s.disk).entry j = some (n, nm')) : i = j :=
  File.slot.inj (h.sound.consistent.exclusive.eq_of_mem (header_mem (headerSector_slot hi))
    (header_mem (headerSector_slot hj)))

theorem files_update {disk' : Bytes} {key : Name} {x : Option (List UInt8)}
    (hkey : ∀ data, x = some data ↔
      ∃ j m, (directoryOn disk').entry j = some (m, key) ∧ data = contents disk' m)
    (hother : ∀ nm ≠ key, ∀ j m, (directoryOn disk').entry j = some (m, nm) ↔
      (directoryOn s.disk).entry j = some (m, nm))
    (hkeep : ∀ nm ≠ key, ∀ j m, (directoryOn s.disk).entry j = some (m, nm) →
      contents disk' m = contents s.disk m) (nm : Name) (data : List UInt8) :
    Function.update v.files key x nm = some data ↔
      ∃ j m, (directoryOn disk').entry j = some (m, nm) ∧ data = contents disk' m := by
  by_cases hnm : nm = key
  · subst hnm
    rw [Function.update_self]
    exact hkey data
  · rw [Function.update_of_ne hnm, h.files]
    refine exists_congr fun j => exists_congr fun m => ?_
    rw [hother nm hnm]
    exact and_congr_right fun hj => by rw [hkeep nm hnm j m hj]

theorem meets_mount : Meets s v .mount := by
  have hm := h.sound.mounted
  have hmount : FileSystem.mount s.disk = .ok ⟨⟨onDisk s.disk freeMapSector, 0⟩,
      ⟨onDisk s.disk directorySector, 0⟩⟩ := by
    rw [FileSystem.mount, OpenFile.new_ok (by decide), except_ok_bind,
      OpenFile.new_ok (by decide), except_ok_bind]
    rfl
  have hmounted : Mounted ⟨⟨onDisk s.disk freeMapSector, 0⟩,
      ⟨onDisk s.disk directorySector, 0⟩⟩ s.disk := by
    rw [hm.map, hm.dir]
    exact { hm with }
  refine ⟨.done, ⟨s.disk, _, []⟩, _, by rw [Session.serve, hmount]; rfl, .mounted,
    ⟨⟨rfl, fun fs' hfs => ?_⟩, fun o ho => absurd ho List.not_mem_nil, fun _ => rfl⟩,
    h.files, h.lengths, h.used, .nil⟩
  obtain rfl := Option.some.inj hfs
  exact ⟨hmounted, h.sound.fits, h.sound.consistent⟩

section Create
variable {disk' name : Bytes} {size : BitVec 32} {i n : ℕ}
  (hc : Created s.disk disk' name size i n)
include hc

omit h in
theorem entry_created {j m : ℕ} {nm : Name} :
    (directoryOn disk').entry j = some (m, nm) ↔
      j = i ∧ m = n ∧ nm = Directory.key name ∨ (directoryOn s.disk).entry j = some (m, nm) := by
  rw [hc.saved.entry]
  split_ifs with hj
  · rw [hj, hc.unused]
    simp [eq_comm]
  · simp [hj]

theorem room_of_created (hsize : 0 ≤ size.toInt) :
    Room v (Directory.key name) size.toInt.toNat := by
  refine ⟨fun hmem => ?_, ?_, ?_⟩
  · obtain ⟨j, m, hentry⟩ := h.mem_names.mp hmem
    exact hc.newName j m hentry
  · rw [h.card_lt_iff]
    refine ⟨i, ?_, hc.unused⟩
    by_contra hi
    have hentry := (entry_created hc (j := i)).mpr (.inl ⟨rfl, rfl, rfl⟩)
    rw [Directory.entry, if_neg fun hlt => hi hlt.1] at hentry
    cases hentry
  · have hcount := (hc.count hsize).2
    have hfree := h.freeList_length
    omega

theorem created (hsize : 0 ≤ size.toInt) :
    Shows { s with disk := disk' } (v.put (Directory.key name) (contents disk' n)) := by
  have hroom := h.room_of_created hc hsize
  have hlength : ((contents disk' n).length : Int) = size.toInt := by
    rw [length_contents, hc.length]
    exact Int.toNat_of_nonneg hsize
  have hkeep : ∀ j m nm, (directoryOn s.disk).entry j = some (m, nm) →
      contents disk' m = contents s.disk m :=
    fun j m nm hentry => hc.saved.contents h.sound hentry
  refine ⟨(State.openInv_create h.inv rfl hc).session rfl, h.files_update (fun data => ?_)
    (fun nm hnm j m => ?_) (fun nm _ j m => hkeep j m nm), fun j m nm hentry => ?_, ?_, ?_⟩
  · constructor
    · intro hdata
      exact ⟨i, n, (entry_created hc).mpr (.inl ⟨rfl, rfl, rfl⟩), (Option.some.inj hdata).symm⟩
    · rintro ⟨j, m, hentry, rfl⟩
      rcases (entry_created hc).mp hentry with ⟨-, rfl, -⟩ | hold
      · rfl
      · exact absurd hold (hc.newName j m)
  · rw [entry_created hc]
    simp [hnm]
  · dsimp only at hentry ⊢
    rcases (entry_created hc).mp hentry with ⟨-, rfl, -⟩ | hold
    · have hcount := (hc.count hsize).1
      rw [hc.length, hcount]
      exact ⟨hsize, congrArg blocks (by omega)⟩
    · rw [onDisk_congr (hc.saved.header h.sound (headerSector_slot hold)), hkeep j m nm hold]
      exact h.lengths j m nm hold
  · dsimp only
    rw [hc.card hsize, h.used, sectorsUsed, sectorsUsed, Volume.total_put_new fileSectors hroom.1,
      show (contents disk' n).length = size.toInt.toNat by omega]
    omega
  · refine h.handles.imp fun o hd hr => hr.mono fun j m nm hentry _ => ?_
    exact (entry_created hc).mpr (.inr hentry)

end Create

theorem meets_create (name : Bytes) (size : BitVec 32) (junk : Junk) (hsize : 0 ≤ size.toInt)
    (hmax : size.toInt ≤ maxFileSize) : Meets s v (.create name size junk) := by
  rcases FileSystem.create_cases h.sound junk name ((FileHeader.sectorsFor_le_iff size).mpr hmax)
    with ⟨hfalse, hwhy⟩ | ⟨disk', i, n, htrue, hc⟩
  · refine ⟨.success false, s, v, by rw [Session.serve, hfalse]; rfl, .notCreated ?_, h⟩
    rintro ⟨hnew, hcard, hused⟩
    rcases hwhy with ⟨j, t, hentry⟩ | hfull | hfew
    · exact hnew (h.mem_names.mpr ⟨j, t, hentry⟩)
    · obtain ⟨j, hj, hnone⟩ := h.card_lt_iff.mp hcard
      exact hfull j hj hnone
    · have hfree := h.freeList_length
      rw [sectorsFor_eq_blocks hsize] at hfew
      unfold fileSectors at hused
      omega
  · have hlength : (contents disk' n).length = size.toInt.toNat := by
      rw [length_contents, hc.length]
    refine ⟨.success true, _, _, by rw [Session.serve, htrue]; rfl, .created (contents disk' n) ?_
      (by omega), h.created hc hsize⟩
    rw [hlength]
    exact h.room_of_created hc hsize

section Remove
variable {disk' name : Bytes} {i n : ℕ} (hr : Removed s.disk disk' i)
  (hentry : (directoryOn s.disk).entry i = some (n, Directory.key name))
include hr hentry

omit hentry h in
theorem entry_removed {j m : ℕ} {nm : Name} :
    (directoryOn disk').entry j = some (m, nm) ↔
      j ≠ i ∧ (directoryOn s.disk).entry j = some (m, nm) := by
  rw [hr.saved.entry]
  split_ifs with hj <;> simp [hj]

theorem slot_eq_iff {j m : ℕ} {nm : Name} (hj : (directoryOn s.disk).entry j = some (m, nm)) :
    j = i ↔ nm = Directory.key name := by
  constructor
  · rintro rfl
    exact congrArg Prod.snd (Option.some.inj (hj.symm.trans hentry))
  · rintro rfl
    exact h.sound.consistent.names j i m n _ hj hentry

theorem refers_removed {o : Opened} {hd : Handle Name} (ho : Refers s.disk o hd) :
    Refers disk' (o.forget n) (hd.forget (Directory.key name)) := by
  cases hremoved : o.removed with
  | true =>
    have hname := ho.removed hremoved
    have hforget : (o.forget n).removed = true ∧ (o.forget n).file = o.file := by
      unfold Opened.forget
      split_ifs
      · exact ⟨rfl, rfl⟩
      · exact ⟨hremoved, rfl⟩
    have hsame : hd.forget (Directory.key name) = hd := by
      unfold Handle.forget
      rw [hname]
      exact if_neg (by simp)
    rw [hsame]
    refine ⟨by rw [hforget.2]; exact ho.position, fun _ => hname, fun hlive => ?_⟩
    rw [hforget.1] at hlive
    cases hlive
  | false =>
    obtain ⟨j, m, nm, hj, hsector, hname⟩ := ho.live hremoved
    by_cases hji : j = i
    · -- the handle is one of the removed file
      have hnm := (h.slot_eq_iff hr hentry hj).mp hji
      obtain rfl : m = n := by
        rw [hji, hentry] at hj
        exact (congrArg Prod.fst (Option.some.inj hj)).symm
      rw [Opened.forget, if_pos hsector, Handle.forget, if_pos (hname.trans (congrArg some hnm))]
      exact ⟨ho.position, fun _ => rfl, fun hlive => absurd hlive (by simp)⟩
    · have hnm : nm ≠ Directory.key name := fun hnm => hji ((h.slot_eq_iff hr hentry hj).mpr hnm)
      have hmn : o.sector ≠ n := by
        rw [hsector]
        intro hmn
        obtain rfl : m = n := by exact_mod_cast hmn
        exact hji (h.slot_of_header hj hentry)
      rw [Opened.forget, if_neg hmn, Handle.forget,
        if_neg (by rw [hname]; exact fun heq => hnm (Option.some.inj heq))]
      refine ⟨ho.position, ho.removed, fun _ => ⟨j, m, nm, ?_, hsector, hname⟩⟩
      exact (entry_removed hr).mpr ⟨hji, hj⟩

theorem removed :
    Shows { s with disk := disk', opened := s.opened.map (Opened.forget n) }
      (v.erase (Directory.key name)) := by
  have hkeep : ∀ j m nm, (directoryOn s.disk).entry j = some (m, nm) →
      contents disk' m = contents s.disk m :=
    fun j m nm hj => hr.saved.contents h.sound hj
  refine ⟨(State.openInv_remove h.inv rfl hentry hr).session rfl, h.files_update (fun data => ?_)
    (fun nm hnm j m => ?_) (fun nm _ j m => hkeep j m nm), fun j m nm hj => ?_, ?_, ?_⟩
  · constructor
    · intro hdata
      cases hdata
    · rintro ⟨j, m, hj, -⟩
      obtain ⟨hji, hold⟩ := (entry_removed hr).mp hj
      exact absurd ((h.slot_eq_iff hr hentry hold).mpr rfl) hji
  · rw [entry_removed hr]
    exact and_iff_right_of_imp fun hj hji => hnm ((h.slot_eq_iff hr hentry hj).mp hji)
  · have hold := ((entry_removed hr).mp hj).2
    dsimp only
    rw [onDisk_congr (hr.saved.header h.sound (headerSector_slot hold)), hkeep j m nm hold]
    exact h.lengths j m nm hold
  · have hcard := hr.card h.sound hentry
    have hfile := (h.files _ _).mpr ⟨i, n, hentry, rfl⟩
    have htotal := Volume.total_erase fileSectors hfile
    have hused := h.used
    rw [(h.lengths i n _ hentry).2, ← fileSectors] at hcard
    unfold sectorsUsed at *
    dsimp only at *
    omega
  · have hmap := List.Forall₂.imp (fun o hd ho => h.refers_removed hr hentry ho) h.handles
    unfold Volume.erase
    dsimp only
    rw [List.forall₂_map_left_iff, List.forall₂_map_right_iff]
    exact hmap

end Remove

theorem meets_remove (name : Bytes) (junk : Junk) : Meets s v (.remove name junk) := by
  rcases FileSystem.remove_cases h.sound junk name with
    ⟨hfalse, hwhy⟩ | ⟨disk', i, n, hfind, hentry, htrue, hr⟩
  · refine ⟨.success false, s, v, by rw [Session.serve, hfalse]; rfl, .notRemoved ?_, h⟩
    intro hmem
    obtain ⟨j, t, hj⟩ := h.mem_names.mp hmem
    exact hwhy j t hj
  · refine ⟨.success true, _, _, ?_, .removed (h.mem_names.mpr ⟨i, n, hentry⟩),
      h.removed hr hentry⟩
    rw [Session.serve, htrue, hfind]
    rfl

theorem meets_openFile (name : Bytes) (junk : Junk) : Meets s v (.openFile name junk) := by
  rcases FileSystem.openFile_cases h.sound junk name with
    ⟨hnone, hwhy⟩ | ⟨i, n, hfind, hentry, hopen⟩
  · refine ⟨.handle none, s, v, by rw [Session.serve, hnone]; rfl, .notOpened fun hmem => ?_, h⟩
    obtain ⟨j, t, hj⟩ := h.mem_names.mp hmem
    exact hwhy j t hj
  · have hanswer : Answers v (.openFile name junk, .handle (some v.handles.length)) _ :=
      .opened (h.mem_names.mpr ⟨i, n, hentry⟩)
    rw [← h.handles.length_eq] at hanswer
    refine ⟨_, _, _, by rw [Session.serve, hopen, hfind]; rfl, hanswer,
      (State.openInv_open h.inv rfl hentry).session rfl, h.files, h.lengths, h.used, ?_⟩
    refine List.rel_append h.handles (.cons ⟨rfl, fun hr => absurd hr (by simp), fun _ => ?_⟩ .nil)
    exact ⟨i, n, _, hentry, rfl, rfl⟩

section Handle
variable {k : ℕ} {o : Opened} (ho : s.opened[k]? = some o)
include ho

theorem handle : ∃ hd, v.handles[k]? = some hd ∧ Refers s.disk o hd := by
  obtain ⟨hk, rfl⟩ := List.getElem?_eq_some_iff.mp ho
  have hk' : k < v.handles.length := h.handles.length_eq ▸ hk
  exact ⟨v.handles[k], List.getElem?_eq_getElem hk', h.handles.get hk hk'⟩

theorem openedSound : OpenedSound s.disk o := h.inv.opened o (List.mem_of_getElem? ho)

theorem moved {hd : Handle Name} (hr : Refers s.disk o hd) (p : ℕ) :
    Shows { s with opened := s.opened.set k { o with file := o.file.seek p } }
      (v.move k { hd with position := p }) := by
  have hsound := h.openedSound ho
  refine ⟨⟨⟨rfl, h.inv.inv.sound⟩, fun o' ho' => ?_, fun hnone => ?_⟩, h.files, h.lengths, h.used,
    forall₂_set h.handles k ⟨rfl, hr.removed, hr.live⟩⟩
  · rcases List.mem_or_eq_of_mem_set ho' with ho' | rfl
    · exact h.inv.opened o' ho'
    · exact ⟨hsound.valid, Int.natCast_nonneg p, hsound.live⟩
  · exact absurd hnone (by simp [Session.state])

theorem meets_seek {position : BitVec 32} (hpos : 0 ≤ position.toInt) :
    Meets s v (.seek k position) := by
  obtain ⟨hd, hhd, hr⟩ := h.handle ho
  refine ⟨.done, _, _, ?_, .sought hhd, h.moved ho hr position.toInt.toNat⟩
  rw [Session.serve, ho, Int.toNat_of_nonneg hpos]

theorem live_file (hlive : o.removed = false) :
    ∃ i n nm, (directoryOn s.disk).entry i = some (n, nm) ∧ o.sector = n ∧
      o.file.hdr = onDisk s.disk n ∧ v.files nm = some (contents s.disk n) ∧
      v.handles[k]? = some ⟨some nm, o.file.seekPosition.toNat⟩ := by
  obtain ⟨hd, hhd, hr⟩ := h.handle ho
  obtain ⟨i, n, nm, hentry, hsector, hname⟩ := hr.live hlive
  obtain ⟨i', n', nm', -, hsector', hhdr⟩ := (h.openedSound ho).live hlive
  obtain rfl : n = n' := by
    rw [hsector] at hsector'
    exact_mod_cast hsector'
  refine ⟨i, n, nm, hentry, hsector, hhdr, (h.files _ _).mpr ⟨i, n, hentry, rfl⟩, ?_⟩
  rw [hhd, ← hname, hr.position]
  rfl

theorem removed_handle (hremoved : o.removed = true) :
    v.handles[k]? = some ⟨none, o.file.seekPosition.toNat⟩ := by
  obtain ⟨hd, hhd, hr⟩ := h.handle ho
  rw [hhd, ← hr.removed hremoved, hr.position]
  rfl

theorem meets_length : Meets s v (.length k) := by
  have hserve : s.serve (.length k) = .ok (.count o.file.length, s) := by
    rw [Session.serve, ho]
  cases hremoved : o.removed with
  | true => exact ⟨_, s, v, hserve, .lengthRemoved _ (h.removed_handle ho hremoved), h⟩
  | false =>
    obtain ⟨i, n, nm, hentry, -, hhdr, hfile, hhandle⟩ := h.live_file ho hremoved
    refine ⟨_, s, v, hserve, ?_, h⟩
    have hlen : o.file.length = ((contents s.disk n).length : Int) := by
      rw [OpenFile.length, hhdr, length_contents]
      exact (Int.toNat_of_nonneg (h.lengths i n nm hentry).1).symm
    rw [hlen]
    exact .length hhandle hfile

end Handle

theorem meets_read {k : ℕ} {o : Opened} (ho : s.opened[k]? = some o) (into : Bytes)
    {numBytes : BitVec 32} (hint : o.file.seekPosition + numBytes.toInt ≤ intMax) :
    Meets s v (.read k into numBytes) := by
  have hsound := h.openedSound ho
  have hpos := hsound.position
  obtain ⟨hd, hhd, hr⟩ := h.handle ho
  have hread := OpenFile.readAt_ok hsound.valid s.disk into hpos hint
  generalize ht : OpenFile.transferred o.file.hdr numBytes.toInt o.file.seekPosition = t at hread
  have hserve : s.serve (.read k into numBytes) = .ok
      (.bytes ((List.range t).map (bcopy (fun j =>
          o.file.hdr.byte s.disk (o.file.seekPosition.toNat + j)) into 0 t)),
        { s with opened := s.opened.set k { o with
          file := o.file.seek (o.file.seekPosition + t) } }) := by
    rw [Session.serve, ho]
    dsimp only
    rw [OpenFile.read, hread]
    rfl
  have hmoved := h.moved ho hr (o.file.seekPosition.toNat + t)
  rw [show ((o.file.seekPosition.toNat + t : ℕ) : Int) = o.file.seekPosition + t by omega] at hmoved
  cases hremoved : o.removed with
  | true =>
    have hhandle := h.removed_handle ho hremoved
    obtain rfl := Option.some.inj (hhd.symm.trans hhandle)
    refine ⟨_, _, _, hserve, .readRemoved _ hhandle, ?_⟩
    rw [List.length_map, List.length_range]
    exact hmoved
  | false =>
    obtain ⟨i, n, nm, hentry, -, hhdr, hfile, hhandle⟩ := h.live_file ho hremoved
    obtain rfl := Option.some.inj (hhd.symm.trans hhandle)
    refine ⟨_, _, _, hserve, .read hhandle hfile ?_, ?_⟩
    · rw [hhdr] at ht ⊢
      rw [← ht]
      exact read_contents into hpos
    · rw [List.length_map, List.length_range]
      exact hmoved

section Write
variable {k i n : ℕ} {o : Opened} {nm : Name} {disk' : Bytes} {bs : List UInt8}
  (ho : s.opened[k]? = some o) (hlive : o.removed = false)
  (hentry : (directoryOn s.disk).entry i = some (n, nm)) (hsector : o.sector = n)
  (hframe : ∀ m, m ∉ o.file.hdr.sectors → sector disk' m = sector s.disk m)
  (hcontents : contents disk' n = overwrite (contents s.disk n) o.file.seekPosition.toNat bs)
include ho hlive hentry hsector hframe hcontents

/-- A write through a handle changes the contents of its file only. -/
theorem written (t : ℕ) :
    Shows { s with
        disk := disk'
        opened := s.opened.set k { o with file := o.file.seek (o.file.seekPosition + t) } }
      ((v.put nm (overwrite (contents s.disk n) o.file.seekPosition.toNat bs)).move k
        ⟨some nm, o.file.seekPosition.toNat + t⟩) := by
  have hsound := h.openedSound ho
  have hpos := hsound.position
  have hmounted := untouched_mounted h.sound hsound (.inl hlive) hframe
  have huntouched := untouched_of_write h.sound hsound (.inl hlive) hframe
  have hfile := (h.files _ _).mpr ⟨i, n, hentry, rfl⟩
  -- the files under other names have other headers, and their data sectors are not written
  have hother : ∀ j m nm', (directoryOn s.disk).entry j = some (m, nm') → nm' ≠ nm →
      contents disk' m = contents s.disk m := by
    intro j m nm' hj hne
    have hmn : (m : Int) ≠ o.sector := by
      rw [hsector]
      intro hmn
      obtain rfl : m = n := by exact_mod_cast hmn
      rw [h.slot_of_header hj hentry, hentry] at hj
      exact hne (congrArg Prod.snd (Option.some.inj hj)).symm
    exact contents_congr (huntouched.headers _ m (headerSector_slot hj))
      (huntouched.contents j m nm' hj (.inr hmn))
  refine ⟨⟨⟨rfl, fun fs' hfs => ?_⟩, fun o' ho' => ?_, fun hnone => ?_⟩,
    h.files_update (fun data => ?_) (fun nm' _ j m => by rw [huntouched.entry])
      (fun nm' hne j m hj => hother j m nm' hj hne), fun j m nm' hj => ?_, ?_, ?_⟩
  · obtain rfl := Option.some.inj hfs
    exact huntouched.sound h.sound hmounted
  · rcases List.mem_or_eq_of_mem_set ho' with ho' | rfl
    · exact huntouched.opened (h.inv.opened o' ho')
    · refine huntouched.opened ⟨hsound.valid, ?_, hsound.live⟩
      unfold OpenFile.seek
      dsimp only
      omega
  · exact absurd hnone (by simp [Session.state])
  · simp only [huntouched.entry]
    rw [← hcontents]
    constructor
    · intro hdata
      exact ⟨i, n, hentry, (Option.some.inj hdata).symm⟩
    · rintro ⟨j, m, hj, rfl⟩
      obtain rfl := h.sound.consistent.names j i m n nm hj hentry
      obtain rfl : m = n := congrArg Prod.fst (Option.some.inj (hj.symm.trans hentry))
      rfl
  · dsimp only at hj ⊢
    rw [huntouched.entry] at hj
    have hlengths := h.lengths j m nm' hj
    rw [length_contents] at hlengths
    rw [length_contents, onDisk_congr (huntouched.headers _ m (headerSector_slot hj))]
    exact hlengths
  · dsimp only
    rw [huntouched.freeMap, h.used]
    exact congrArg (5 + ·) (Volume.total_put_same fileSectors hfile (length_overwrite ..)).symm
  · have hkeep : ∀ j m nm', (directoryOn s.disk).entry j = some (m, nm') →
        (directoryOn disk').entry j = some (m, nm') :=
      fun j m nm' hj => (huntouched.entry j).trans hj
    -- the directory has not changed, so every handle still refers to its file
    have hall : List.Forall₂ (Refers disk') s.opened v.handles :=
      h.handles.imp fun o hd hr => hr.mono fun j m nm' hj _ => hkeep j m nm' hj
    refine forall₂_set hall k
      ⟨?_, fun hr => ?_, fun _ => ⟨i, n, nm, hkeep i n nm hentry, hsector, rfl⟩⟩
    · unfold OpenFile.seek
      dsimp only
      omega
    · dsimp only at hr
      rw [hlive] at hr
      cases hr

end Write

theorem meets_write {k : ℕ} {o : Opened} (ho : s.opened[k]? = some o) (hlive : o.removed = false)
    (source junk : Bytes) {numBytes : BitVec 32}
    (hint : o.file.seekPosition + numBytes.toInt ≤ intMax) :
    Meets s v (.write k source numBytes junk) := by
  have hsound := h.openedSound ho
  have hpos := hsound.position
  obtain ⟨i, n, nm, hentry, hsector, hhdr, hfile, hhandle⟩ := h.live_file ho hlive
  obtain ⟨disk', hwrite, hframe, hbyte⟩ :=
    OpenFile.writeAt_ok hsound.valid s.disk source junk hpos hint
  have hheader : sector disk' n = sector s.disk n := by
    apply hframe
    exact header_not_written h.sound hsound (.inl hlive) (headerSector_slot hentry)
  have ht : OpenFile.transferred o.file.hdr numBytes.toInt o.file.seekPosition =
      ((given source numBytes).take
        ((contents s.disk n).length - o.file.seekPosition.toNat)).length := by
    rw [List.length_take, given, List.length_map, List.length_range, length_contents, hhdr,
      OpenFile.transferred]
    omega
  rw [hhdr] at hbyte
  have hcontents := write_contents hheader source numBytes hbyte hpos
  refine ⟨_, _, _, ?_, .wrote hhandle hfile ht,
    h.written ho hlive hentry hsector hframe hcontents _⟩
  rw [Session.serve, ho]
  dsimp only
  rw [OpenFile.write, hwrite]
  rfl

theorem meets {r : Request} (hr : s.Allowed r) : Meets s v r := by
  cases r with
  | mount => exact h.meets_mount
  | create name size junk => exact h.meets_create name size junk hr.1 hr.2
  | remove name junk => exact h.meets_remove name junk
  | openFile name junk => exact h.meets_openFile name junk
  | read k into numBytes =>
    obtain ⟨o, ho, hint⟩ := hr
    exact h.meets_read ho into hint
  | write k source numBytes junk =>
    obtain ⟨o, ho, hlive, hint⟩ := hr
    exact h.meets_write ho hlive source junk hint
  | seek k position => exact h.meets_seek (List.getElem?_eq_getElem hr.1) hr.2
  | length k => exact h.meets_length (List.getElem?_eq_getElem hr)

theorem step {l : Request × Reply} {s' : Session} (hstep : s.Step l s') :
    ∃ v', Answers v l v' ∧ Shows s' v' := by
  obtain ⟨r, reply⟩ := l
  obtain ⟨reply', s'', v', hserve, hanswers, hshows⟩ := h.meets hstep.1
  obtain ⟨rfl, rfl⟩ := Prod.mk.inj (Except.ok.inj (hstep.2.symm.trans hserve))
  exact ⟨v', hanswers, hshows⟩

end Shows

end Nachos.Filesys
