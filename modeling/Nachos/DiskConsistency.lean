import Nachos.DiskFiles
import Nachos.Lib.Ownership

namespace Nachos.Filesys
open Buffers BlockFiles Programs Ownership

def freeMapOn (disk : Bytes) : Bitmap :=
  PersistentBitmap.ofBytes ((FileHeader.onDisk disk freeMapSector).byte disk)

def directoryOn (disk : Bytes) : Directory :=
  ⟨(FileHeader.onDisk disk directorySector).byte disk⟩

/-- The files on the disk: the two of the file system and those of the directory's slots. -/
inductive File where
  | freeMap
  | directory
  | slot (i : ℕ)
  deriving DecidableEq

def headerSector (disk : Bytes) : File → Option ℕ
  | .freeMap => some freeMapSector
  | .directory => some directorySector
  | .slot i => ((directoryOn disk).entry i).map Prod.fst

def sectorsOf (disk : Bytes) (f : File) : List ℕ :=
  match headerSector disk f with
  | some s => s :: (FileHeader.onDisk disk s).sectors
  | none => []

/-- The free map marks the sectors of the files, which share none, and the names differ. -/
structure Consistent (disk : Bytes) : Prop where
  exclusive : Exclusive (sectorsOf disk) {n | n ∈ (freeMapOn disk).marked}
  names : ∀ i j s t nm, (directoryOn disk).entry i = some (s, nm) →
    (directoryOn disk).entry j = some (t, nm) → i = j

theorem sectorsOf_eq {disk : Bytes} {f : File} {s : ℕ} (h : headerSector disk f = some s) :
    sectorsOf disk f = s :: (FileHeader.onDisk disk s).sectors := by
  rw [sectorsOf, h]

theorem sectorsOf_none {disk : Bytes} {f : File} (h : headerSector disk f = none) :
    sectorsOf disk f = [] := by
  rw [sectorsOf, h]

theorem header_mem {disk : Bytes} {f : File} {s : ℕ} (h : headerSector disk f = some s) :
    s ∈ sectorsOf disk f := by
  rw [sectorsOf_eq h]
  exact List.mem_cons_self

theorem data_mem {disk : Bytes} {f : File} {s n : ℕ} (h : headerSector disk f = some s)
    (hn : n ∈ (FileHeader.onDisk disk s).sectors) : n ∈ sectorsOf disk f := by
  rw [sectorsOf_eq h]
  exact List.mem_cons_of_mem _ hn

theorem headerSector_slot {disk : Bytes} {i s : ℕ} {nm : List UInt8}
    (h : (directoryOn disk).entry i = some (s, nm)) : headerSector disk (.slot i) = some s := by
  rw [headerSector, h]
  rfl

theorem onDisk_congr {disk disk' : Bytes} {n : ℕ} (h : sector disk' n = sector disk n) :
    FileHeader.onDisk disk' n = FileHeader.onDisk disk n := by
  rw [FileHeader.onDisk, h, ← FileHeader.onDisk]

theorem byte_congr {hdr : FileHeader} {disk disk' : Bytes} {k : ℕ} (hk : k < sectorSize * hdr.count)
    (h : ∀ n ∈ hdr.sectors, sector disk' n = sector disk n) :
    hdr.byte disk' k = hdr.byte disk k := by
  have hlt : k / sectorSize < hdr.count := Nat.div_lt_of_lt_mul hk
  exact content_congr rfl (h _ (FileHeader.mem_sectors.mpr ⟨_, hlt, rfl⟩))

/-- The open files of the file system go with the headers in sectors 0 and 1. -/
structure Mounted (fs : FileSystem) (disk : Bytes) : Prop where
  map : FileHeader.onDisk disk freeMapSector = fs.freeMapFile.hdr
  dir : FileHeader.onDisk disk directorySector = fs.directoryFile.hdr
  mapValid : fs.freeMapFile.hdr.Valid
  dirValid : fs.directoryFile.hdr.Valid
  mapLength : fs.freeMapFile.hdr.fileLength = freeMapFileSize
  dirLength : fs.directoryFile.hdr.fileLength = directoryFileSize
  apart : fs.freeMapFile.hdr.sectors.Disjoint fs.directoryFile.hdr.sectors
  mapData : freeMapSector ∉ fs.freeMapFile.hdr.sectors ∧
    directorySector ∉ fs.freeMapFile.hdr.sectors
  dirData : freeMapSector ∉ fs.directoryFile.hdr.sectors ∧
    directorySector ∉ fs.directoryFile.hdr.sectors

namespace Mounted

variable {fs : FileSystem} {disk : Bytes} (hm : Mounted fs disk)
include hm

theorem of_frame {disk' : Bytes} (hmap : sector disk' freeMapSector = sector disk freeMapSector)
    (hdir : sector disk' directorySector = sector disk directorySector) : Mounted fs disk' :=
  { hm with
    map := (onDisk_congr hmap).trans hm.map
    dir := (onDisk_congr hdir).trans hm.dir }

theorem freeMapOn_eq :
    freeMapOn disk = PersistentBitmap.ofBytes (fs.freeMapFile.hdr.byte disk) := by
  rw [freeMapOn, hm.map]

theorem directoryOn_eq : directoryOn disk = ⟨fs.directoryFile.hdr.byte disk⟩ := by
  rw [directoryOn, hm.dir]

theorem freeMapOn_congr {disk' : Bytes} (hm' : Mounted fs disk')
    (h : ∀ n ∈ fs.freeMapFile.hdr.sectors, sector disk' n = sector disk n) :
    freeMapOn disk' = freeMapOn disk := by
  rw [hm.freeMapOn_eq, hm'.freeMapOn_eq]
  refine PersistentBitmap.ofBytes_congr fun k hk => byte_congr ?_ h
  have hfits := hm.mapValid.fits
  rw [hm.mapLength] at hfits
  zify
  omega

theorem table_congr {disk' : Bytes} (hm' : Mounted fs disk')
    (h : ∀ n ∈ fs.directoryFile.hdr.sectors, sector disk' n = sector disk n) {k : ℕ}
    (hk : k < directoryFileSize) : (directoryOn disk').table k = (directoryOn disk).table k := by
  rw [hm.directoryOn_eq, hm'.directoryOn_eq]
  refine byte_congr ?_ h
  have hfits := hm.dirValid.fits
  rw [hm.dirLength] at hfits
  zify
  omega

theorem readMap : PersistentBitmap.new fs.freeMapFile.hdr disk = .ok (freeMapOn disk) := by
  rw [PersistentBitmap.new_ok hm.mapValid hm.mapLength, hm.freeMapOn_eq]

theorem readDir (d : Directory) :
    ∃ d', d.fetchFrom fs.directoryFile.hdr disk = .ok d' ∧
      ∀ i, d'.entry i = (directoryOn disk).entry i := by
  rw [hm.directoryOn_eq]
  exact Directory.fetchFrom_ok hm.dirValid hm.dirLength disk d

theorem writeMap {b : Bitmap} (hb : b.numBits = numSectors) (buf : Bytes) :
    ∃ disk', PersistentBitmap.writeBack b fs.freeMapFile.hdr disk buf = .ok disk' ∧
      Mounted fs disk' ∧ freeMapOn disk' = b ∧
      (∀ i, (directoryOn disk').entry i = (directoryOn disk).entry i) ∧
      ∀ m, m ∉ fs.freeMapFile.hdr.sectors → sector disk' m = sector disk m := by
  obtain ⟨disk', hwrite, hmap, hframe⟩ :=
    PersistentBitmap.writeBack_ok hm.mapValid hm.mapLength disk hb buf
  have hm' := hm.of_frame (hframe _ hm.mapData.1) (hframe _ hm.mapData.2)
  refine ⟨disk', hwrite, hm', hm'.freeMapOn_eq.trans hmap, ?_, hframe⟩
  refine Directory.entry_eq_of_table fun k hk => hm.table_congr hm' (fun n hn => ?_) hk
  exact hframe n fun h => hm.apart h hn

theorem writeDir (d : Directory) (buf : Bytes) :
    ∃ disk', d.writeBack fs.directoryFile.hdr disk buf = .ok disk' ∧
      Mounted fs disk' ∧ freeMapOn disk' = freeMapOn disk ∧
      (∀ i, (directoryOn disk').entry i = d.entry i) ∧
      ∀ m, m ∉ fs.directoryFile.hdr.sectors → sector disk' m = sector disk m := by
  obtain ⟨disk', hwrite, hentry, hframe⟩ :=
    Directory.writeBack_ok hm.dirValid hm.dirLength disk d buf
  have hm' := hm.of_frame (hframe _ hm.dirData.1) (hframe _ hm.dirData.2)
  refine ⟨disk', hwrite, hm', ?_, ?_, hframe⟩
  · exact hm.freeMapOn_congr hm' fun n hn => hframe n (hm.apart hn)
  · rw [hm'.directoryOn_eq]
    exact hentry

end Mounted

/-- What holds between the calls. -/
structure Sound (fs : FileSystem) (disk : Bytes) : Prop where
  mounted : Mounted fs disk
  fits : ∀ f s, headerSector disk f = some s → (FileHeader.onDisk disk s).Fits
  consistent : Consistent disk

namespace Sound

variable {fs : FileSystem} {disk : Bytes} (hs : Sound fs disk)
include hs

theorem mem_marked {f : File} {n : ℕ} (h : n ∈ sectorsOf disk f) : n ∈ (freeMapOn disk).marked :=
  (hs.consistent.exclusive.used_iff n).mpr ⟨f, h⟩

theorem sector_lt {f : File} {n : ℕ} (h : n ∈ sectorsOf disk f) : n < numSectors :=
  (Bitmap.mem_marked.mp (hs.mem_marked h)).1

theorem valid {f : File} {s : ℕ} (h : headerSector disk f = some s) :
    (FileHeader.onDisk disk s).Valid where
  count_le := (hs.fits f s h).count_le
  fits := (hs.fits f s h).fits
  onDisk n hn := hs.sector_lt (data_mem h hn)
  nodup := by
    have hnodup := hs.consistent.exclusive.nodup f
    rw [sectorsOf_eq h] at hnodup
    exact (List.nodup_cons.mp hnodup).2

theorem header_not_data {f g : File} {s t : ℕ} (hf : headerSector disk f = some s)
    (hg : headerSector disk g = some t) : s ∉ (FileHeader.onDisk disk t).sectors := by
  intro hmem
  obtain rfl := hs.consistent.exclusive.eq_of_mem (header_mem hf) (data_mem hg hmem)
  obtain rfl := Option.some.inj (hf.symm.trans hg)
  have hnodup := hs.consistent.exclusive.nodup f
  rw [sectorsOf_eq hf] at hnodup
  exact (List.nodup_cons.mp hnodup).1 hmem

/-- What `Find` returns, in the directory as it was read from the disk. -/
theorem find_cases {d : Directory} (hentry : ∀ i, d.entry i = (directoryOn disk).entry i)
    (name : Bytes) :
    (d.find name = -1 ∧ ∀ j t, (directoryOn disk).entry j ≠ some (t, Directory.key name)) ∨
    ∃ i s : ℕ, d.find name = s ∧ (directoryOn disk).find name = s ∧ d.findIndex name = some i ∧
      (directoryOn disk).entry i = some (s, Directory.key name) := by
  have hsame := Directory.findIndex_congr hentry name
  cases hfind : d.findIndex name with
  | none =>
    exact .inl ⟨Directory.find_of_none hfind,
      Directory.findIndex_none (hsame.symm.trans hfind)⟩
  | some i =>
    obtain ⟨-, s, he⟩ := Directory.findIndex_some hfind
    have hslot := (hentry i).symm.trans he
    have hlt := hs.sector_lt (header_mem (headerSector_slot hslot))
    exact .inr ⟨i, s, Directory.find_of_entry hfind he hlt,
      Directory.find_of_entry (hsame.symm.trans hfind) hslot hlt, rfl, hslot⟩

end Sound

/-- One slot of the directory has changed, to `e`.  Of the other sectors only the data of the
file system and the sector of the new header are written. -/
structure Saved (disk disk' : Bytes) (i : ℕ) (e : Option (ℕ × List UInt8)) : Prop where
  entry : ∀ j, (directoryOn disk').entry j = if j = i then e else (directoryOn disk).entry j
  fresh : ∀ s nm, e = some (s, nm) → s ∉ (freeMapOn disk).marked
  frame : ∀ n, n ∉ (FileHeader.onDisk disk freeMapSector).sectors →
    n ∉ (FileHeader.onDisk disk directorySector).sectors → (∀ nm, e ≠ some (n, nm)) →
    sector disk' n = sector disk n

structure Created (disk disk' name : Bytes) (size : BitVec 32) (i s : ℕ) : Prop where
  saved : Saved disk disk' i (some (s, Directory.key name))
  unused : (directoryOn disk).entry i = none
  newName : ∀ j t, (directoryOn disk).entry j ≠ some (t, Directory.key name)
  fits : (FileHeader.onDisk disk' s).Fits
  length : (FileHeader.onDisk disk' s).fileLength = size.toInt
  sectors : s :: (FileHeader.onDisk disk' s).sectors =
    (freeMapOn disk).freeList.take (FileHeader.sectorsFor size + 1)
  marked : ∀ m, m ∈ (freeMapOn disk').marked ↔
    m ∈ (freeMapOn disk).marked ∨ m ∈ s :: (FileHeader.onDisk disk' s).sectors

structure Removed (disk disk' : Bytes) (i : ℕ) : Prop where
  saved : Saved disk disk' i none
  marked : ∀ m, m ∈ (freeMapOn disk').marked ↔
    m ∈ (freeMapOn disk).marked ∧ m ∉ sectorsOf disk (.slot i)

section Saved
variable {fs : FileSystem} {disk disk' : Bytes} {i : ℕ} {e : Option (ℕ × List UInt8)}
  (hs : Sound fs disk) (h : Saved disk disk' i e)
include hs h

theorem Saved.header {f : File} {s : ℕ} (hf : headerSector disk f = some s) :
    sector disk' s = sector disk s := by
  refine h.frame s ?_ ?_ fun nm he => h.fresh s nm he (hs.mem_marked (header_mem hf))
  · exact hs.header_not_data hf (g := .freeMap) rfl
  · exact hs.header_not_data hf (g := .directory) rfl

theorem Saved.mounted : Mounted fs disk' :=
  hs.mounted.of_frame (h.header hs (f := .freeMap) rfl) (h.header hs (f := .directory) rfl)

omit hs in
theorem Saved.headerSector {f : File} (hf : f ≠ .slot i) :
    headerSector disk' f = headerSector disk f := by
  cases f with
  | freeMap => rfl
  | directory => rfl
  | slot j =>
    have hj : j ≠ i := fun hj => hf (congrArg File.slot hj)
    rw [Filesys.headerSector, h.entry, if_neg hj, ← Filesys.headerSector]

omit hs in
theorem Saved.headerSector_self : Filesys.headerSector disk' (.slot i) = e.map Prod.fst := by
  rw [Filesys.headerSector, h.entry, if_pos rfl]

theorem Saved.sectorsOf {f : File} (hf : f ≠ .slot i) : sectorsOf disk' f = sectorsOf disk f := by
  cases hsector : Filesys.headerSector disk f with
  | none => rw [sectorsOf_none hsector, sectorsOf_none ((h.headerSector hf).trans hsector)]
  | some s =>
    rw [sectorsOf_eq hsector, sectorsOf_eq ((h.headerSector hf).trans hsector),
      onDisk_congr (h.header hs hsector)]

omit hs in
theorem Saved.sector_eq {m : ℕ} (hm : ∀ f, (∀ j, f ≠ .slot j) → m ∉ Filesys.sectorsOf disk f)
    (hnew : ∀ nm, e ≠ some (m, nm)) : sector disk' m = sector disk m := by
  refine h.frame m (fun hmem => ?_) (fun hmem => ?_) hnew
  · exact hm .freeMap (by simp) (data_mem rfl hmem)
  · exact hm .directory (by simp) (data_mem rfl hmem)

/-- The invariant after a change, from what is to be shown of the slot. -/
theorem Saved.sound
    (hfits : ∀ s nm, e = some (s, nm) → (FileHeader.onDisk disk' s).Fits)
    (hnames : ∀ s nm, e = some (s, nm) → ∀ j t, (directoryOn disk).entry j ≠ some (t, nm))
    (hexclusive : Exclusive
      (Function.update (Filesys.sectorsOf disk) (.slot i) (Filesys.sectorsOf disk' (.slot i)))
      {n | n ∈ (freeMapOn disk').marked}) : Sound fs disk' := by
  have hheld : Filesys.sectorsOf disk' = Function.update (Filesys.sectorsOf disk) (.slot i)
      (Filesys.sectorsOf disk' (.slot i)) := by
    funext f
    by_cases hf : f = .slot i
    · rw [hf, Function.update_self]
    · rw [Function.update_of_ne hf, h.sectorsOf hs hf]
  refine ⟨h.mounted hs, fun f s hf => ?_, hheld ▸ hexclusive, fun j k s t nm hj hk => ?_⟩
  · by_cases hslot : f = .slot i
    · rw [hslot, h.headerSector_self] at hf
      obtain ⟨⟨s', nm⟩, he, rfl⟩ := Option.map_eq_some_iff.mp hf
      exact hfits s' nm he
    · rw [h.headerSector hslot] at hf
      rw [onDisk_congr (h.header hs hf)]
      exact hs.fits f s hf
  · rw [h.entry] at hj hk
    split_ifs at hj hk with h₁ h₂ h₂
    · rw [h₁, h₂]
    · exact absurd hk (hnames s nm hj k t)
    · exact absurd hj (hnames t nm hk j s)
    · exact hs.consistent.names j k s t nm hj hk

end Saved

section Created
variable {disk disk' name : Bytes} {size : BitVec 32} {i s : ℕ}
  (h : Created disk disk' name size i s)
include h

theorem Created.sectorsOf :
    sectorsOf disk' (.slot i) = s :: (FileHeader.onDisk disk' s).sectors :=
  sectorsOf_eq h.saved.headerSector_self

theorem Created.free {m : ℕ} (hm : m ∈ Filesys.sectorsOf disk' (.slot i)) :
    m ∉ (freeMapOn disk).marked := by
  rw [h.sectorsOf, h.sectors] at hm
  exact (Bitmap.mem_freeList.mp (List.mem_of_mem_take hm)).2

theorem Created.sound {fs : FileSystem} (hs : Sound fs disk) : Sound fs disk' := by
  have hbefore : Filesys.sectorsOf disk (.slot i) = [] := by
    apply sectorsOf_none
    rw [headerSector, h.unused]
    rfl
  refine h.saved.sound hs ?_ ?_ ?_
  · rintro s' nm ⟨⟩
    exact h.fits
  · rintro s' nm ⟨⟩
    exact h.newName
  · have hnodup : (Filesys.sectorsOf disk' (.slot i)).Nodup := by
      rw [h.sectorsOf, h.sectors]
      exact (freeMapOn disk).nodup_freeList.sublist (List.take_sublist ..)
    have hexclusive := hs.consistent.exclusive.acquireAll (.slot i) hnodup fun m hm => h.free hm
    rw [hbefore, List.nil_append] at hexclusive
    convert hexclusive using 1
    ext m
    rw [h.sectorsOf]
    exact h.marked m

theorem Removed.undoes {disk'' : Bytes} (hr : Removed disk' disk'' i) :
    (∀ j, (directoryOn disk'').entry j = (directoryOn disk).entry j) ∧
      (freeMapOn disk'').freeList = (freeMapOn disk).freeList := by
  constructor
  · intro j
    rw [hr.saved.entry, h.saved.entry]
    split_ifs with hj
    · rw [hj, h.unused]
    · rfl
  · refine Bitmap.freeList_congr rfl fun m => ?_
    rw [hr.marked, h.marked, ← h.sectorsOf]
    exact ⟨fun ⟨hm, hnot⟩ => hm.resolve_right hnot, fun hm => ⟨.inl hm, fun hmem => h.free hmem hm⟩⟩

end Created

theorem Removed.sound {fs : FileSystem} {disk disk' : Bytes} {i : ℕ} (hs : Sound fs disk)
    (h : Removed disk disk' i) : Sound fs disk' := by
  have hnone : ∀ s nm, (none : Option (ℕ × List UInt8)) ≠ some (s, nm) := by simp
  refine h.saved.sound hs (fun s nm he => absurd he (hnone s nm))
    (fun s nm he => absurd he (hnone s nm)) ?_
  rw [sectorsOf_none h.saved.headerSector_self]
  convert hs.consistent.exclusive.release (.slot i) using 1
  ext m
  exact h.marked m

namespace FileSystem

/-- `Create` ends early, with nothing written, when the name is taken, the directory is full or
no sector is free; otherwise it comes to `store` with a slot and a free sector. -/
theorem create_reaches {fs : FileSystem} {disk : Bytes} (hm : Mounted fs disk) (name : Bytes)
    (size : BitVec 32) (junk : Junk) :
    (fs.create disk name size junk = .ok (false, disk) ∧
      ((∃ j t, (directoryOn disk).entry j = some (t, Directory.key name)) ∨
        (∀ j < numDirEntries, (directoryOn disk).entry j ≠ none) ∨
        (freeMapOn disk).freeList = [])) ∨
    ∃ s l i d, (freeMapOn disk).freeList = s :: l ∧ i < numDirEntries ∧
      (directoryOn disk).entry i = none ∧
      (∀ j t, (directoryOn disk).entry j ≠ some (t, Directory.key name)) ∧
      (∀ j, d.entry j =
        if j = i then some (s, Directory.key name) else (directoryOn disk).entry j) ∧
      fs.create disk name size junk =
        fs.store disk d ((freeMapOn disk).markBit s) s size junk := by
  obtain ⟨d, hd, hentry⟩ := hm.readDir (Directory.new (junk 0))
  rw [create, hd, except_ok_bind]
  -- the checks in the order of the code: the name, a sector for the header, a slot
  by_cases hfind : d.find name = -1
  · rw [hfind, if_neg (not_not.mpr rfl), hm.readMap, except_ok_bind]
    cases hfree : (freeMapOn disk).freeList with
    | nil =>
      rw [Bitmap.findAndSet_of_full hfree]
      exact .inl ⟨rfl, .inr (.inr rfl)⟩
    | cons s l =>
      have hlt : s < numSectors := (Bitmap.free_of_freeList hfree).1
      rw [Bitmap.findAndSet_of_freeList hfree]
      dsimp only
      rw [if_neg (by omega)]
      rcases d.add_cases name hlt with ⟨hadd, hwhy⟩ | ⟨i, d', hadd, hnew, hi, hunused, hd'⟩
      · simp only [hentry] at hwhy
        rw [hadd]
        exact .inl ⟨rfl, hwhy.imp_right .inl⟩
      · simp only [hentry] at hnew hunused hd'
        rw [hadd]
        exact .inr ⟨s, l, i, d', rfl, hi, hunused, hnew, hd', rfl⟩
  · rw [if_pos hfind]
    refine .inl ⟨rfl, .inl ?_⟩
    cases hindex : d.findIndex name with
    | none => exact absurd (Directory.find_of_none hindex) hfind
    | some i =>
      obtain ⟨-, t, ht⟩ := Directory.findIndex_some hindex
      exact ⟨i, t, (hentry i).symm.trans ht⟩

section Calls
variable {fs : FileSystem} {disk : Bytes} (hs : Sound fs disk) (junk : Junk)
include hs

omit junk in
theorem store_writes {s : ℕ} (hlt : s < numSectors) (hunmarked : s ∉ (freeMapOn disk).marked)
    (hdr : FileHeader) (d : Directory) {b : Bitmap} (hbits : b.numBits = numSectors)
    (buf₁ buf₂ : Bytes) :
    ∃ disk₁ disk₂ disk₃, hdr.writeBack disk s = .ok disk₁ ∧
      d.writeBack fs.directoryFile.hdr disk₁ buf₁ = .ok disk₂ ∧
      PersistentBitmap.writeBack b fs.freeMapFile.hdr disk₂ buf₂ = .ok disk₃ ∧
      FileHeader.onDisk disk₃ s = hdr ∧ freeMapOn disk₃ = b ∧
      (∀ j, (directoryOn disk₃).entry j = d.entry j) ∧
      ∀ n, n ∉ fs.freeMapFile.hdr.sectors → n ∉ fs.directoryFile.hdr.sectors → n ≠ s →
        sector disk₃ n = sector disk n := by
  have hm := hs.mounted
  -- the sector of the header is free, so it is none of those of the file system
  have hnotMap : s ∉ fs.freeMapFile.hdr.sectors := by
    intro h
    rw [← hm.map] at h
    exact hunmarked (hs.mem_marked (data_mem (f := .freeMap) rfl h))
  have hnotDir : s ∉ fs.directoryFile.hdr.sectors := by
    intro h
    rw [← hm.dir] at h
    exact hunmarked (hs.mem_marked (data_mem (f := .directory) rfl h))
  have hne : ∀ f t, headerSector disk f = some t → t ≠ s := by
    rintro f t hf rfl
    exact hunmarked (hs.mem_marked (header_mem hf))
  obtain ⟨disk₁, hw₁, hhdr₁, hframe₁⟩ := hdr.writeBack_ok hlt disk
  have hm₁ := hm.of_frame (hframe₁ _ (hne .freeMap _ rfl)) (hframe₁ _ (hne .directory _ rfl))
  obtain ⟨disk₂, hw₂, hm₂, -, hentry₂, hframe₂⟩ := hm₁.writeDir d buf₁
  obtain ⟨disk₃, hw₃, hm₃, hmap₃, hentry₃, hframe₃⟩ := hm₂.writeMap hbits buf₂
  refine ⟨disk₁, disk₂, disk₃, hw₁, hw₂, hw₃, ?_, hmap₃, fun j => ?_, fun n h₁ h₂ h₃ => ?_⟩
  · rw [onDisk_congr (hframe₃ s hnotMap), onDisk_congr (hframe₂ s hnotDir), hhdr₁]
  · rw [hentry₃, hentry₂]
  · rw [hframe₃ n h₁, hframe₂ n h₂, hframe₁ n h₃]

theorem store_cases {d : Directory} {name : Bytes} {size : BitVec 32} {i s : ℕ} {l : List ℕ}
    (hfree : (freeMapOn disk).freeList = s :: l) (hsize : FileHeader.sectorsFor size ≤ numDirect)
    (hunused : (directoryOn disk).entry i = none)
    (hnew : ∀ j t, (directoryOn disk).entry j ≠ some (t, Directory.key name))
    (hd : ∀ j, d.entry j =
      if j = i then some (s, Directory.key name) else (directoryOn disk).entry j) :
    (l.length < FileHeader.sectorsFor size ∧
      fs.store disk d ((freeMapOn disk).markBit s) s size junk = .ok (false, disk)) ∨
    ∃ disk', fs.store disk d ((freeMapOn disk).markBit s) s size junk = .ok (true, disk') ∧
      Created disk disk' name size i s := by
  obtain ⟨hlt, hunmarked⟩ := Bitmap.free_of_freeList hfree
  have hbits : ((freeMapOn disk).markBit s).numBits = numSectors := rfl
  have hcases := FileHeader.allocate_ok (FileHeader.ofBytes (junk 1)) hbits hsize
  rw [Bitmap.freeList_markBit hfree] at hcases
  unfold store
  -- without enough sectors nothing has been written yet
  rcases hcases with ⟨hfew, hdr, hfalse⟩ |
    ⟨-, hdr, b, htrue, hfits, hlength, hlist, hbits', -, hmarked⟩
  · rw [hfalse]
    exact .inl ⟨hfew, rfl⟩
  · obtain ⟨disk₁, disk₂, disk₃, hw₁, hw₂, hw₃, hhdr, hmap, hentry, hframe⟩ :=
      store_writes hs hlt hunmarked hdr d hbits' (junk 2) (junk 3)
    rw [htrue, except_ok_bind]
    dsimp only
    rw [if_pos rfl, hw₁, except_ok_bind, hw₂, except_ok_bind, hw₃]
    refine .inr ⟨disk₃, rfl, ⟨fun j => ?_, ?_, fun n h₁ h₂ h₃ => ?_⟩, hunused, hnew, ?_, ?_, ?_,
      fun m => ?_⟩
    · rw [hentry, hd]
    · rintro s' nm ⟨⟩
      exact hunmarked
    · rw [hs.mounted.map] at h₁
      rw [hs.mounted.dir] at h₂
      refine hframe n h₁ h₂ ?_
      rintro rfl
      exact h₃ _ rfl
    · rw [hhdr]
      exact hfits
    · rw [hhdr, hlength]
    · rw [hhdr, hlist, hfree, List.take_succ_cons]
    · rw [hmap, hhdr, hmarked, Bitmap.marked_markBit _ hlt, Finset.mem_insert, List.mem_cons,
        or_assoc, or_left_comm]

/-- `Create` returns `FALSE` when the name is taken, the directory is full or too few sectors
are free, and then has written nothing. -/
theorem create_cases (name : Bytes) {size : BitVec 32}
    (hsize : FileHeader.sectorsFor size ≤ numDirect) :
    (fs.create disk name size junk = .ok (false, disk) ∧
      ((∃ j t, (directoryOn disk).entry j = some (t, Directory.key name)) ∨
        (∀ j < numDirEntries, (directoryOn disk).entry j ≠ none) ∨
        (freeMapOn disk).freeList.length < FileHeader.sectorsFor size + 1)) ∨
    ∃ disk' i s, fs.create disk name size junk = .ok (true, disk') ∧
      Created disk disk' name size i s := by
  rcases create_reaches hs.mounted name size junk with
    ⟨hfalse, hwhy⟩ | ⟨s, l, i, d, hfree, -, hunused, hnew, hd, hreaches⟩
  · refine .inl ⟨hfalse, hwhy.imp_right (Or.imp_right fun hnone => ?_)⟩
    rw [hnone]
    exact Nat.succ_pos _
  · rw [hreaches]
    rcases store_cases hs junk hfree hsize hunused hnew hd with
      ⟨hfew, hstore⟩ | ⟨disk', hstore, hc⟩
    · refine .inl ⟨hstore, .inr (.inr ?_)⟩
      rw [hfree, List.length_cons]
      omega
    · exact .inr ⟨disk', i, s, hstore, hc⟩

/-- `Remove` returns `FALSE` when there is no such file. -/
theorem remove_cases (name : Bytes) :
    (fs.remove disk name junk = .ok (false, disk) ∧
      ∀ j t, (directoryOn disk).entry j ≠ some (t, Directory.key name)) ∨
    ∃ disk' i, ∃ s : ℕ, (directoryOn disk).find name = s ∧
      (directoryOn disk).entry i = some (s, Directory.key name) ∧
      fs.remove disk name junk = .ok (true, disk') ∧ Removed disk disk' i := by
  obtain ⟨d, hd, hentry⟩ := hs.mounted.readDir (Directory.new (junk 0))
  rw [remove, hd, except_ok_bind]
  dsimp only
  rcases hs.find_cases hentry name with ⟨hfind, hnone⟩ | ⟨i, s, hfind, hfind', hindex, hslot⟩
  · rw [hfind, if_pos rfl]
    exact .inl ⟨rfl, hnone⟩
  · have hheader := headerSector_slot hslot
    have hlt := hs.sector_lt (header_mem hheader)
    have hm := hs.mounted
    -- the data sectors are marked, so the assertions of `Deallocate` hold; then the map and the
    -- directory are written
    obtain ⟨b, hdealloc, hbits, hmarked⟩ := FileHeader.deallocate_ok (hs.valid hheader)
      (show (freeMapOn disk).numBits = numSectors from rfl)
      fun n hn => hs.mem_marked (data_mem hheader hn)
    have hlt' : s < b.numBits := hbits ▸ hlt
    obtain ⟨d', hremove, hd'⟩ := Directory.entry_remove hindex
    obtain ⟨disk₁, hw₁, hm₁, hmap₁, hentry₁, hframe₁⟩ :=
      hm.writeMap (b := b.clearBit s) hbits (junk 1)
    obtain ⟨disk₂, hw₂, hm₂, hmap₂, hentry₂, hframe₂⟩ := hm₁.writeDir d' (junk 2)
    rw [hfind, if_neg (by omega), FileHeader.fetchFrom_ok hlt,
      except_ok_bind, hm.readMap, except_ok_bind, hdealloc, except_ok_bind,
      PersistentBitmap.clear_ok hlt', except_ok_bind, hremove, Option.getD_some, hw₁,
      except_ok_bind, hw₂]
    refine .inr ⟨disk₂, i, s, hfind', hslot, rfl,
      ⟨fun j => ?_, ?_, fun n h₁ h₂ _ => ?_⟩, fun m => ?_⟩
    · rw [hentry₂, hd', hentry]
    · intro s' nm he
      cases he
    · rw [hm.map] at h₁
      rw [hm.dir] at h₂
      rw [hframe₂ n h₂, hframe₁ n h₁]
    · rw [hmap₂, hmap₁, Bitmap.marked_clearBit _ hlt', Finset.mem_erase, hmarked,
        sectorsOf_eq hheader, List.mem_cons, not_or, and_left_comm]

/-- `Open` returns the file whose name is looked for, at its start. -/
theorem openFile_cases (name : Bytes) :
    (fs.openFile disk name junk = .ok none ∧
      ∀ j t, (directoryOn disk).entry j ≠ some (t, Directory.key name)) ∨
    ∃ i, ∃ s : ℕ, (directoryOn disk).find name = s ∧
      (directoryOn disk).entry i = some (s, Directory.key name) ∧
      fs.openFile disk name junk = .ok (some ⟨FileHeader.onDisk disk s, 0⟩) := by
  obtain ⟨d, hd, hentry⟩ := hs.mounted.readDir (Directory.new (junk 0))
  rw [openFile, hd, except_ok_bind]
  dsimp only
  rcases hs.find_cases hentry name with ⟨hfind, hnone⟩ | ⟨i, s, hfind, hfind', -, hslot⟩
  · rw [hfind, if_neg (by decide)]
    exact .inl ⟨rfl, hnone⟩
  · have hlt := hs.sector_lt (header_mem (headerSector_slot hslot))
    rw [hfind, if_pos (Int.natCast_nonneg s), OpenFile.new_ok hlt]
    exact .inr ⟨i, s, hfind', hslot, rfl⟩

end Calls

theorem mustAllocate_ok (junk : Bytes) {freeMap : Bitmap}
    (hbits : freeMap.numBits = numSectors) (size : ℕ) (hsize : size < 2 ^ 31)
    (hfit : FileHeader.sectorsFor (BitVec.ofNat 32 size) ≤ numDirect)
    (hroom : FileHeader.sectorsFor (BitVec.ofNat 32 size) ≤ freeMap.freeList.length) :
    ∃ hdr freeMap', mustAllocate junk freeMap size = .ok (hdr, freeMap') ∧
      hdr.Fits ∧ hdr.fileLength = size ∧
      hdr.sectors = freeMap.freeList.take (FileHeader.sectorsFor (BitVec.ofNat 32 size)) ∧
      freeMap'.numBits = numSectors ∧
      freeMap'.freeList = freeMap.freeList.drop (FileHeader.sectorsFor (BitVec.ofNat 32 size)) ∧
      ∀ m, m ∈ freeMap'.marked ↔ m ∈ freeMap.marked ∨ m ∈ hdr.sectors := by
  have hint : (BitVec.ofNat 32 size).toInt = size := by
    rw [BitVec.toInt_ofNat', Int.bmod_eq_of_le] <;> omega
  rcases FileHeader.allocate_ok (FileHeader.ofBytes junk) hbits hfit with ⟨hfew, -⟩ |
    ⟨-, hdr, b, htrue, hfits, hlength, hlist, hbits', hfree, hmarked⟩
  · omega
  · refine ⟨hdr, b, ?_, hfits, hlength.trans hint, hlist, hbits', hfree, hmarked⟩
    rw [mustAllocate, htrue]
    rfl

end FileSystem

structure Formatted (fs : FileSystem) (disk disk' : Bytes) : Prop where
  sound : Sound fs disk'
  entry : ∀ i, (directoryOn disk').entry i = none
  free : (freeMapOn disk').freeList = List.range' 5 1019
  frame : ∀ n, 5 ≤ n → sector disk' n = sector disk n

theorem exclusive_formatted {held : File → List ℕ} {used : Set ℕ} (hmap : held .freeMap = [0, 2])
    (hdir : held .directory = [1, 3, 4]) (hslot : ∀ i, held (.slot i) = [])
    (hused : ∀ m, m ∈ used ↔ m < 5) : Exclusive held used := by
  have hmem : ∀ f m, m ∈ held f ↔
      (f = .freeMap ∧ (m = 0 ∨ m = 2)) ∨ (f = .directory ∧ (m = 1 ∨ m = 3 ∨ m = 4)) := by
    intro f m
    cases f with
    | freeMap => simp [hmap]
    | directory => simp [hdir]
    | slot i => simp [hslot]
  refine ⟨fun f => ?_, fun f g hfg m hf hg => ?_, fun m => ?_⟩
  · cases f with
    | freeMap => rw [hmap]; decide
    | directory => rw [hdir]; decide
    | slot i => rw [hslot]; exact List.nodup_nil
  · rw [hmem] at hf hg
    rcases hf with ⟨rfl, hf⟩ | ⟨rfl, hf⟩ <;> rcases hg with ⟨rfl, hg⟩ | ⟨rfl, hg⟩
    · exact hfg rfl
    · omega
    · omega
    · exact hfg rfl
  · rw [hused]
    constructor
    · intro hm
      by_cases h : m = 0 ∨ m = 2
      · exact ⟨.freeMap, (hmem ..).mpr (.inl ⟨rfl, h⟩)⟩
      · exact ⟨.directory, (hmem ..).mpr (.inr ⟨rfl, by omega⟩)⟩
    · rintro ⟨f, hf⟩
      rw [hmem] at hf
      omega

namespace FileSystem

theorem format_allocates (junk : Junk) :
    ∃ mapHdr dirHdr b₁ b₂ b₃ b₄,
      PersistentBitmap.mark (Bitmap.new numSectors) freeMapSector = .ok b₁ ∧
      PersistentBitmap.mark b₁ directorySector = .ok b₂ ∧
      mustAllocate (junk 1) b₂ freeMapFileSize = .ok (mapHdr, b₃) ∧
      mustAllocate (junk 2) b₃ directoryFileSize = .ok (dirHdr, b₄) ∧
      (mapHdr.Fits ∧ mapHdr.fileLength = freeMapFileSize ∧ mapHdr.sectors = [2]) ∧
      (dirHdr.Fits ∧ dirHdr.fileLength = directoryFileSize ∧ dirHdr.sectors = [3, 4]) ∧
      b₄.numBits = numSectors ∧ b₄.freeList = List.range' 5 1019 ∧
      ∀ m, m ∈ b₄.marked ↔ m < 5 := by
  have hfree₀ : (Bitmap.new numSectors).freeList = 0 :: 1 :: List.range' 2 1022 := by
    rw [Bitmap.freeList_new, List.range_eq_range']
    rfl
  have hbits₀ : (Bitmap.new numSectors).numBits = numSectors := Bitmap.numBits_new _
  have hlt₀ : 0 < (Bitmap.new numSectors).numBits := by
    rw [hbits₀]
    decide
  have hlt₁ : 1 < ((Bitmap.new numSectors).markBit 0).numBits := by
    rw [Bitmap.numBits_markBit, hbits₀]
    decide
  have hbits₂ : (((Bitmap.new numSectors).markBit 0).markBit 1).numBits = numSectors := by
    rw [Bitmap.numBits_markBit, Bitmap.numBits_markBit, hbits₀]
  -- sectors 0 and 1 have the headers, 2 the free map, 3 and 4 the directory
  have hfree₂ := Bitmap.freeList_markBit (Bitmap.freeList_markBit hfree₀)
  have hone : FileHeader.sectorsFor (BitVec.ofNat 32 freeMapFileSize) = 1 := by decide
  have htwo : FileHeader.sectorsFor (BitVec.ofNat 32 directoryFileSize) = 2 := by decide
  obtain ⟨mapHdr, b₃, hmap, hmapFits, hmapLength, hmapSectors, hbits₃, hfree₃, hmarked₃⟩ :=
    mustAllocate_ok (junk 1) hbits₂ freeMapFileSize (by decide) (by decide)
      (by rw [hfree₂, hone, List.length_range']; decide)
  rw [hfree₂, hone] at hmapSectors hfree₃
  obtain ⟨dirHdr, b₄, hdir, hdirFits, hdirLength, hdirSectors, hbits₄, hfree₄, hmarked₄⟩ :=
    mustAllocate_ok (junk 2) hbits₃ directoryFileSize (by decide) (by decide)
      (by rw [hfree₃, htwo, List.length_drop, List.length_range']; decide)
  rw [hfree₃, htwo] at hdirSectors hfree₄
  refine ⟨mapHdr, dirHdr, _, _, b₃, b₄, PersistentBitmap.mark_ok hlt₀,
    PersistentBitmap.mark_ok hlt₁, hmap, hdir, ⟨hmapFits, hmapLength, hmapSectors⟩,
    ⟨hdirFits, hdirLength, hdirSectors⟩, hbits₄, hfree₄, fun m => ?_⟩
  rw [hmarked₄, hdirSectors, hmarked₃, hmapSectors, Bitmap.marked_markBit _ hlt₁,
    Bitmap.marked_markBit _ hlt₀, Bitmap.marked_new]
  change (m ∈ insert 1 (insert 0 (∅ : Finset ℕ)) ∨ m ∈ [2]) ∨ m ∈ [3, 4] ↔ m < 5
  simp only [Finset.mem_insert, Finset.notMem_empty, List.mem_cons, List.not_mem_nil, or_false]
  omega

section Format
variable {mapHdr dirHdr : FileHeader} {disk : Bytes}
  (hmap : mapHdr.Fits ∧ mapHdr.fileLength = freeMapFileSize ∧ mapHdr.sectors = [2])
  (hdir : dirHdr.Fits ∧ dirHdr.fileLength = directoryFileSize ∧ dirHdr.sectors = [3, 4])
include hmap hdir

theorem mounted_formatted (hmapDisk : FileHeader.onDisk disk freeMapSector = mapHdr)
    (hdirDisk : FileHeader.onDisk disk directorySector = dirHdr) :
    Mounted ⟨⟨mapHdr, 0⟩, ⟨dirHdr, 0⟩⟩ disk := by
  obtain ⟨hmapFits, hmapLength, hmapSectors⟩ := hmap
  obtain ⟨hdirFits, hdirLength, hdirSectors⟩ := hdir
  exact
    { map := hmapDisk
      dir := hdirDisk
      mapValid := ⟨hmapFits.count_le, hmapFits.fits, by rw [hmapSectors]; decide,
        by rw [hmapSectors]; decide⟩
      dirValid := ⟨hdirFits.count_le, hdirFits.fits, by rw [hdirSectors]; decide,
        by rw [hdirSectors]; decide⟩
      mapLength := hmapLength
      dirLength := hdirLength
      apart := by
        rw [hmapSectors, hdirSectors]
        simp
      mapData := by
        rw [hmapSectors]
        decide
      dirData := by
        rw [hdirSectors]
        decide }

theorem sound_formatted (hm : Mounted ⟨⟨mapHdr, 0⟩, ⟨dirHdr, 0⟩⟩ disk)
    (hnone : ∀ i, (directoryOn disk).entry i = none)
    (hmarked : ∀ m, m ∈ (freeMapOn disk).marked ↔ m < 5) :
    Sound ⟨⟨mapHdr, 0⟩, ⟨dirHdr, 0⟩⟩ disk := by
  have hslot : ∀ i, headerSector disk (.slot i) = none := by
    intro i
    rw [headerSector, hnone]
    rfl
  refine ⟨hm, fun f s hf => ?_, ?_, ?_⟩
  · cases f with
    | freeMap =>
      obtain rfl := Option.some.inj hf
      rw [hm.map]
      exact hmap.1
    | directory =>
      obtain rfl := Option.some.inj hf
      rw [hm.dir]
      exact hdir.1
    | slot i => exact absurd ((hslot i).symm.trans hf) (by simp)
  · apply exclusive_formatted
    · rw [sectorsOf_eq (f := .freeMap) rfl, hm.map, hmap.2.2]
      rfl
    · rw [sectorsOf_eq (f := .directory) rfl, hm.dir, hdir.2.2]
      rfl
    · exact fun i => sectorsOf_none (hslot i)
    · exact hmarked
  · intro i j s t nm hi
    exact absurd ((hnone i).symm.trans hi) (by simp)

end Format

theorem format_ok (disk : Bytes) (junk : Junk) :
    ∃ fs disk', format disk junk = .ok (fs, disk') ∧ Formatted fs disk disk' := by
  obtain ⟨mapHdr, dirHdr, b₁, b₂, b₃, b₄, hmark₀, hmark₁, hmap, hdir, hmapHdr, hdirHdr, hbits,
    hfree, hmarked⟩ := format_allocates junk
  obtain ⟨disk₁, hw₁, hhdr₁, hframe₁⟩ :=
    mapHdr.writeBack_ok (n := freeMapSector) (by decide) disk
  obtain ⟨disk₂, hw₂, hhdr₂, hframe₂⟩ :=
    dirHdr.writeBack_ok (n := directorySector) (by decide) disk₁
  -- none of the later writes goes to the sector of an earlier header
  have hhdr₁' : FileHeader.onDisk disk₂ freeMapSector = mapHdr :=
    (onDisk_congr (hframe₂ _ (by decide))).trans hhdr₁
  have hm₂ := mounted_formatted hmapHdr hdirHdr hhdr₁' hhdr₂
  have hopen₁ := OpenFile.new_ok (n := freeMapSector) (by decide) disk₂
  have hopen₂ := OpenFile.new_ok (n := directorySector) (by decide) disk₂
  rw [hhdr₁'] at hopen₁
  rw [hhdr₂] at hopen₂
  obtain ⟨disk₃, hw₃, hm₃, hmap₃, -, hframe₃⟩ := hm₂.writeMap hbits (junk 3)
  obtain ⟨disk₄, hw₄, hm₄, hmap₄, hentry₄, hframe₄⟩ :=
    hm₃.writeDir (Directory.new (junk 0)) (junk 4)
  have hnone : ∀ i, (directoryOn disk₄).entry i = none := fun i =>
    (hentry₄ i).trans (Directory.entry_new (junk 0) i)
  refine ⟨⟨⟨mapHdr, 0⟩, ⟨dirHdr, 0⟩⟩, disk₄, ?_, ?_, hnone, ?_, ?_⟩
  · rw [format, hmark₀, except_ok_bind, hmark₁, except_ok_bind, hmap, except_ok_bind]
    dsimp only
    rw [hdir, except_ok_bind]
    dsimp only
    rw [hw₁, except_ok_bind, hw₂, except_ok_bind, hopen₁, except_ok_bind, hopen₂, except_ok_bind,
      hw₃, except_ok_bind, hw₄]
    rfl
  · apply sound_formatted hmapHdr hdirHdr hm₄ hnone
    rw [hmap₄, hmap₃]
    exact hmarked
  · rw [hmap₄, hmap₃, hfree]
  · intro n hn
    have hnotMap : n ∉ mapHdr.sectors := by
      simp [hmapHdr.2.2]
      omega
    have hnotDir : n ∉ dirHdr.sectors := by
      simp [hdirHdr.2.2]
      omega
    rw [hframe₄ n hnotDir, hframe₃ n hnotMap, hframe₂ n (by unfold directorySector; omega),
      hframe₁ n (by unfold freeMapSector; omega)]

end FileSystem

end Nachos.Filesys
