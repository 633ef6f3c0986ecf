import Nachos.DiskRuns

namespace Nachos.Filesys
open Buffers Programs GuardedRun

/-- What a write through `o` leaves as it is: the free map, the directory, the headers, and the
contents of every file there is except the one that `o` was opened for. -/
structure Untouched (o : Opened) (disk disk' : Bytes) : Prop where
  freeMap : freeMapOn disk' = freeMapOn disk
  directory : ∀ k < directoryFileSize, (directoryOn disk').table k = (directoryOn disk).table k
  headers : ∀ f n, headerSector disk f = some n → sector disk' n = sector disk n
  contents : ∀ i n nm, (directoryOn disk).entry i = some (n, nm) →
    o.removed = true ∨ (n : Int) ≠ o.sector →
    ∀ k : ℕ, (k : Int) < (FileHeader.onDisk disk n).fileLength →
      (FileHeader.onDisk disk n).byte disk' k = (FileHeader.onDisk disk n).byte disk k

theorem Untouched.refl (o : Opened) (disk : Bytes) : Untouched o disk disk :=
  ⟨rfl, fun _ _ => rfl, fun _ _ _ => rfl, fun _ _ _ _ _ _ _ => rfl⟩

/-- While its file is there, an `OpenFile` has the header that is on the disk. -/
structure OpenedSound (disk : Bytes) (o : Opened) : Prop where
  valid : o.file.hdr.Valid
  position : 0 ≤ o.file.seekPosition
  live : o.removed = false → ∃ i n nm, (directoryOn disk).entry i = some (n, nm) ∧
    o.sector = n ∧ o.file.hdr = FileHeader.onDisk disk n

theorem OpenedSound.mono {disk disk' : Bytes} {o : Opened} (h : OpenedSound disk o)
    (hkeep : ∀ i n nm, (directoryOn disk).entry i = some (n, nm) → o.sector = n →
      (directoryOn disk').entry i = some (n, nm) ∧
        FileHeader.onDisk disk' n = FileHeader.onDisk disk n) : OpenedSound disk' o := by
  refine ⟨h.valid, h.position, fun hlive => ?_⟩
  obtain ⟨i, n, nm, hentry, hsector, hhdr⟩ := h.live hlive
  obtain ⟨hentry', hhdr'⟩ := hkeep i n nm hentry hsector
  exact ⟨i, n, nm, hentry', hsector, hhdr.trans hhdr'.symm⟩

section Write
variable {fs : FileSystem} {disk disk' : Bytes} {o : Opened} (hs : Sound fs disk)
  (ho : OpenedSound disk o)
  (hfree : o.removed = false ∨ ∀ n ∈ o.file.hdr.sectors, n ∉ (freeMapOn disk).marked)
include hs ho hfree

theorem not_written {f : File} {n m : ℕ} (hf : headerSector disk f = some n)
    (hother : o.removed = true ∨ (n : Int) ≠ o.sector) (hm : m ∈ sectorsOf disk f) :
    m ∉ o.file.hdr.sectors := by
  intro hw
  cases hremoved : o.removed with
  | true =>
    rw [hremoved] at hfree
    exact hfree.resolve_left (by decide) m hw (hs.mem_marked hm)
  | false =>
    obtain ⟨i, t, nm, hentry, hsector, hhdr⟩ := ho.live hremoved
    have hslot := headerSector_slot hentry
    rw [hhdr] at hw
    obtain rfl := hs.consistent.exclusive.eq_of_mem hm (data_mem hslot hw)
    obtain rfl := Option.some.inj (hf.symm.trans hslot)
    rw [hremoved] at hother
    exact hother.resolve_left (by decide) hsector.symm

theorem header_not_written {f : File} {n : ℕ} (hf : headerSector disk f = some n) :
    n ∉ o.file.hdr.sectors := by
  cases hremoved : o.removed with
  | true => exact not_written hs ho hfree hf (.inl hremoved) (header_mem hf)
  | false =>
    obtain ⟨i, t, nm, hentry, -, hhdr⟩ := ho.live hremoved
    rw [hhdr]
    exact hs.header_not_data hf (headerSector_slot hentry)

omit hfree in
theorem system_file_other {f : File} {n : ℕ} (hf : headerSector disk f = some n)
    (hsystem : ∀ i, f ≠ .slot i) : o.removed = true ∨ (n : Int) ≠ o.sector := by
  cases hremoved : o.removed with
  | true => exact .inl rfl
  | false =>
    obtain ⟨i, t, nm, hentry, hsector, -⟩ := ho.live hremoved
    refine .inr fun h => hsystem i ?_
    obtain rfl : n = t := by
      rw [hsector] at h
      exact_mod_cast h
    exact hs.consistent.exclusive.eq_of_mem (header_mem hf) (header_mem (headerSector_slot hentry))

variable (hframe : ∀ m, m ∉ o.file.hdr.sectors → sector disk' m = sector disk m)
include hframe

theorem untouched_mounted : Mounted fs disk' :=
  hs.mounted.of_frame (hframe _ (header_not_written hs ho hfree (f := .freeMap) rfl))
    (hframe _ (header_not_written hs ho hfree (f := .directory) rfl))

theorem untouched_of_write : Untouched o disk disk' := by
  have hm := hs.mounted
  have hm' := untouched_mounted hs ho hfree hframe
  -- no data sector of another file is written
  have hdata : ∀ f n, headerSector disk f = some n → o.removed = true ∨ (n : Int) ≠ o.sector →
      ∀ m ∈ (FileHeader.onDisk disk n).sectors, sector disk' m = sector disk m :=
    fun f n hf hother m hmem => hframe m (not_written hs ho hfree hf hother (data_mem hf hmem))
  have hmap := hdata .freeMap _ rfl (system_file_other hs ho (f := .freeMap) rfl (by simp))
  have hdir := hdata .directory _ rfl (system_file_other hs ho (f := .directory) rfl (by simp))
  rw [hm.map] at hmap
  rw [hm.dir] at hdir
  refine ⟨hm.freeMapOn_congr hm' hmap, fun k hk => hm.table_congr hm' hdir hk,
    fun f n hf => hframe n (header_not_written hs ho hfree hf), fun i n nm hentry hother k hk => ?_⟩
  have hslot := headerSector_slot hentry
  refine byte_congr ?_ (hdata _ n hslot hother)
  have hfits := (hs.fits _ n hslot).fits
  zify
  omega

end Write

section Untouched
variable {fs : FileSystem} {disk disk' : Bytes} {o : Opened} (h : Untouched o disk disk')
include h

theorem Untouched.entry (i : ℕ) : (directoryOn disk').entry i = (directoryOn disk).entry i :=
  Directory.entry_eq_of_table h.directory i

theorem Untouched.sound (hs : Sound fs disk) (hm : Mounted fs disk') : Sound fs disk' := by
  have hsector : ∀ f, headerSector disk' f = headerSector disk f := by
    intro f
    cases f with
    | freeMap => rfl
    | directory => rfl
    | slot i => rw [headerSector, h.entry, ← headerSector]
  have hheld : sectorsOf disk' = sectorsOf disk := by
    funext f
    cases hf : headerSector disk f with
    | none => rw [sectorsOf_none hf, sectorsOf_none ((hsector f).trans hf)]
    | some n =>
      rw [sectorsOf_eq hf, sectorsOf_eq ((hsector f).trans hf), onDisk_congr (h.headers f n hf)]
  refine ⟨hm, fun f n hf => ?_, ?_, ?_⟩
  · rw [hsector] at hf
    rw [onDisk_congr (h.headers f n hf)]
    exact hs.fits f n hf
  · rw [hheld, h.freeMap]
    exact hs.consistent.exclusive
  · simp only [h.entry]
    exact hs.consistent.names

theorem Untouched.opened {o' : Opened} (ho : OpenedSound disk o') : OpenedSound disk' o' := by
  refine ho.mono fun i n nm hentry _ => ⟨(h.entry i).trans hentry, ?_⟩
  exact onDisk_congr (h.headers _ n (headerSector_slot hentry))

end Untouched

namespace State

/-- New files fit one header, and a write goes through an `OpenFile` whose file has not been
removed since, or whose sectors nobody has got in the meantime. -/
def Careful (s : State) : Call → Prop
  | .format _ => s.fs = none
  | .create _ initialSize _ => divRoundUpInt initialSize.toInt sectorSize ≤ numDirect
  | .remove _ _ => True
  | .openFile _ _ => True
  | .write k _ _ _ => ∀ o, s.opened[k]? = some o →
      o.removed = false ∨ ∀ n ∈ o.file.hdr.sectors, n ∉ (freeMapOn s.disk).marked

structure OpenInv (s : State) : Prop where
  inv : Inv s
  opened : ∀ o ∈ s.opened, OpenedSound s.disk o
  booted : s.fs = none → s.opened = []

variable {s s' : State}

theorem fault_of_step {c : Call} (h : s.step c = some s') : s.fault = none := by
  by_contra hfault
  rw [step, if_pos (Option.isSome_iff_ne_none.mpr hfault)] at h
  cases h

section Write
variable {k : ℕ} {o : Opened} (hs : OpenInv s) (ho : s.opened[k]? = some o) (source : Bytes)
  (numBytes : BitVec 32) (junk : Bytes)
include hs ho

theorem step_write :
    s.step (.write k source numBytes junk) =
      some { s with result := none, fault := some .undefined } ∨
    ∃ (t : ℕ) (disk' : Bytes), s.step (.write k source numBytes junk) = some { s with
        disk := disk'
        opened := s.opened.set k
          { o with file := { o.file with seekPosition := o.file.seekPosition + t } }
        result := none } ∧
      ∀ m, m ∉ o.file.hdr.sectors → sector disk' m = sector s.disk m := by
  have hsound := hs.opened o (List.mem_of_getElem? ho)
  rcases OpenFile.write_cases hsound.valid hsound.position s.disk source numBytes.toInt junk with
    hwrite | ⟨t, disk', hwrite, hframe⟩
  · refine .inl ?_
    rw [step, hs.inv.fault, attempt, ho, Option.map_some, hwrite]
    rfl
  · refine .inr ⟨t, disk', step_of_ok hs.inv ?_, hframe⟩
    rw [attempt, ho, Option.map_some, hwrite]
    rfl

theorem step_write_untouched
    (hfree : o.removed = false ∨ ∀ n ∈ o.file.hdr.sectors, n ∉ (freeMapOn s.disk).marked)
    (h : s.step (.write k source numBytes junk) = some s') :
    Untouched o s.disk s'.disk ∧ (s'.fault = none → OpenInv s') := by
  rcases step_write hs ho source numBytes junk with hstep | ⟨t, disk', hstep, hframe⟩
  · obtain rfl := Option.some.inj (h.symm.trans hstep)
    exact ⟨.refl o s.disk, fun h => absurd h (by simp)⟩
  · obtain rfl := Option.some.inj (h.symm.trans hstep)
    obtain ⟨fs, hfs⟩ : ∃ fs, s.fs = some fs := by
      refine Option.ne_none_iff_exists'.mp fun hnone => ?_
      rw [hs.booted hnone] at ho
      cases ho
    have hopened := hs.opened o (List.mem_of_getElem? ho)
    have hsound := hs.inv.sound fs hfs
    have huntouched := untouched_of_write hsound hopened hfree hframe
    have hmounted := untouched_mounted hsound hopened hfree hframe
    refine ⟨huntouched, fun _ => ⟨?_, fun o' ho' => ?_, fun hnone => ?_⟩⟩
    · exact hs.inv.result hfs (huntouched.sound hsound hmounted) _ _
    · rcases List.mem_or_eq_of_mem_set ho' with ho' | rfl
      · exact huntouched.opened (hs.opened o' ho')
      · have hpos := hopened.position
        exact huntouched.opened ⟨hopened.valid, by dsimp only; omega, hopened.live⟩
    · exact absurd (hfs.symm.trans hnone) (by simp)

end Write

theorem openInv_create {disk' name : Bytes} {size : BitVec 32} {i n : ℕ} {fs : FileSystem}
    (hs : OpenInv s) (hfs : s.fs = some fs) (hc : Created s.disk disk' name size i n) :
    OpenInv { s with disk := disk', result := some true } := by
  have hsound := hs.inv.sound fs hfs
  refine ⟨hs.inv.result hfs (hc.sound hsound) _ _, fun o ho => ?_, hs.booted⟩
  refine (hs.opened o ho).mono fun j t nm hentry _ => ⟨?_, ?_⟩
  · have hj : j ≠ i := by
      rintro rfl
      exact absurd (hc.unused.symm.trans hentry) (by simp)
    exact (hc.saved.entry j).trans ((if_neg hj).trans hentry)
  · exact onDisk_congr (hc.saved.header hsound (headerSector_slot hentry))

theorem openInv_remove {disk' : Bytes} {i n : ℕ} {nm : List UInt8} {fs : FileSystem}
    (hs : OpenInv s) (hfs : s.fs = some fs) (hentry : (directoryOn s.disk).entry i = some (n, nm))
    (hr : Removed s.disk disk' i) :
    OpenInv { s with
      disk := disk', opened := s.opened.map (Opened.forget n), result := some true } := by
  have hsound := hs.inv.sound fs hfs
  refine ⟨hs.inv.result hfs (hr.sound hsound) _ _, fun o ho => ?_, fun hnone => ?_⟩
  · obtain ⟨o, hmem, rfl⟩ := List.mem_map.mp ho
    have hopened := hs.opened o hmem
    unfold Opened.forget
    split_ifs with hsector
    · exact ⟨hopened.valid, hopened.position, fun h => absurd h (by simp)⟩
    · -- a file with another header is in another slot
      refine hopened.mono fun j t nm' hj ht => ⟨?_, ?_⟩
      · have hji : j ≠ i := by
          rintro rfl
          obtain ⟨rfl, -⟩ := Prod.mk.inj (Option.some.inj (hentry.symm.trans hj))
          exact hsector ht
        exact (hr.saved.entry j).trans ((if_neg hji).trans hj)
      · exact onDisk_congr (hr.saved.header hsound (headerSector_slot hj))
  · exact absurd (hfs.symm.trans hnone) (by simp)

theorem openInv_open {i n : ℕ} {nm : List UInt8} {fs : FileSystem} (hs : OpenInv s)
    (hfs : s.fs = some fs) (hentry : (directoryOn s.disk).entry i = some (n, nm)) :
    OpenInv { s with
      opened := s.opened ++ [⟨⟨FileHeader.onDisk s.disk n, 0⟩, n, false⟩], result := none } := by
  have hsound := hs.inv.sound fs hfs
  refine ⟨⟨hs.inv.fault, hs.inv.sound⟩, fun o ho => ?_, fun hnone => ?_⟩
  · rcases List.mem_append.mp ho with ho | ho
    · exact hs.opened o ho
    · obtain rfl := List.mem_singleton.mp ho
      exact ⟨hsound.valid (headerSector_slot hentry), le_rfl, fun _ => ⟨i, n, nm, hentry, rfl, rfl⟩⟩
  · exact absurd (hfs.symm.trans hnone) (by simp)

theorem openInv_step {c : Call} (hs : OpenInv s) (hc : Careful s c) (h : s.step c = some s')
    (hfault : s'.fault = none) : OpenInv s' := by
  cases c with
  | format junk =>
    obtain ⟨fs, disk', hf, hstep⟩ := step_format hs.inv junk
    obtain rfl := Option.some.inj (h.symm.trans hstep)
    have hnone := hs.booted hc
    refine ⟨⟨hs.inv.fault, fun fs' h => ?_⟩, fun o ho => ?_, fun _ => hnone⟩
    · obtain rfl := Option.some.inj h
      exact hf.sound
    · rw [hnone] at ho
      cases ho
  | create name size junk =>
    obtain ⟨fs, hfs⟩ := fs_of_step rfl h
    rcases step_create hs.inv hfs name (sectorsFor_le hc) junk with
      ⟨hstep, -⟩ | ⟨disk', i, n, hcreated, hstep⟩
    · obtain rfl := Option.some.inj (h.symm.trans hstep)
      exact ⟨⟨hs.inv.fault, hs.inv.sound⟩, hs.opened, hs.booted⟩
    · obtain rfl := Option.some.inj (h.symm.trans hstep)
      exact openInv_create hs hfs hcreated
  | remove name junk =>
    obtain ⟨fs, hfs⟩ := fs_of_step rfl h
    rcases step_remove hs.inv hfs name junk with ⟨hstep, -⟩ | ⟨disk', i, n, hentry, hremoved, hstep⟩
    · obtain rfl := Option.some.inj (h.symm.trans hstep)
      exact ⟨⟨hs.inv.fault, hs.inv.sound⟩, hs.opened, hs.booted⟩
    · obtain rfl := Option.some.inj (h.symm.trans hstep)
      exact openInv_remove hs hfs hentry hremoved
  | openFile name junk =>
    obtain ⟨fs, hfs⟩ := fs_of_step rfl h
    rcases step_openFile hs.inv hfs name junk with ⟨hstep, -⟩ | ⟨i, n, hentry, hstep⟩
    · obtain rfl := Option.some.inj (h.symm.trans hstep)
      exact ⟨⟨hs.inv.fault, hs.inv.sound⟩, hs.opened, hs.booted⟩
    · obtain rfl := Option.some.inj (h.symm.trans hstep)
      exact openInv_open hs hfs hentry
  | write k source numBytes junk =>
    cases ho : s.opened[k]? with
    | none =>
      rw [step, attempt, ho, hs.inv.fault] at h
      cases h
    | some o => exact (step_write_untouched hs ho source numBytes junk (hc o ho) h).2 hfault

theorem openInv_initial (disk : Bytes) : OpenInv (initial disk) :=
  ⟨inv_initial disk, fun _ ho => absurd ho List.not_mem_nil, fun _ => rfl⟩

def letter (c : UInt8) : Bytes := fun i => if i = 0 then c else 0

/-- A file of one sector has been removed while it was open, and no other file is there. -/
structure RemovedOpen (s : State) : Prop where
  inv : OpenInv s
  fs : ∃ fs, s.fs = some fs
  entry : ∀ i, (directoryOn s.disk).entry i = none
  free : (freeMapOn s.disk).freeList = List.range' 5 1019
  opened : ∃ hdr : FileHeader, s.opened = [⟨⟨hdr, 0⟩, 5, true⟩] ∧ hdr.sectors = [6] ∧
    hdr.fileLength = 128
  data : sector s.disk 6 = sector (fun _ => 0) 6

theorem removed_while_open :
    ∃ s₁ s₂ s₃ s₄ : State, (initial fun _ => 0).step (.format fun _ _ => 0) = some s₁ ∧
      s₁.step (.create (letter 97) 128 fun _ _ => 0) = some s₂ ∧
      s₂.step (.openFile (letter 97) fun _ _ => 0) = some s₃ ∧
      s₃.step (.remove (letter 97) fun _ _ => 0) = some s₄ ∧ RemovedOpen s₄ := by
  obtain ⟨fs, disk₁, hf, hstep₁⟩ := step_format (inv_initial fun _ => 0) fun _ _ => 0
  have hinv₁ := openInv_step (openInv_initial _) (show Careful _ (.format _) from rfl) hstep₁ rfl
  obtain ⟨disk₂, i, n, hc, hstep₂⟩ := step_create_first hinv₁.inv rfl (letter 97)
    128 (by decide) (fun _ _ => 0) hf.entry hf.free
  have hinv₂ := openInv_create hinv₁ rfl hc
  have hsectors := hc.sectors
  rw [hf.free] at hsectors
  obtain ⟨rfl, hdata⟩ : n = 5 ∧ (FileHeader.onDisk disk₂ n).sectors = [6] := List.cons.inj hsectors
  have hentry₂ : (directoryOn disk₂).entry i = some (5, Directory.key (letter 97)) := by
    rw [hc.saved.entry, if_pos rfl]
  -- the only entry is that of the new file
  have honly : ∀ j m nm, (directoryOn disk₂).entry j = some (m, nm) → j = i ∧ m = 5 := by
    intro j m nm h
    rw [hc.saved.entry, hf.entry] at h
    split_ifs at h with hj
    exact ⟨hj, (congrArg Prod.fst (Option.some.inj h)).symm⟩
  rcases step_openFile hinv₂.inv rfl (letter 97) fun _ _ => 0 with
    ⟨-, hno⟩ | ⟨j, m, hentry, hstep₃⟩
  · exact absurd hentry₂ (hno i 5)
  obtain ⟨rfl, rfl⟩ := honly j m _ hentry
  have hinv₃ := openInv_open hinv₂ rfl hentry
  rcases step_remove hinv₃.inv rfl (letter 97) fun _ _ => 0 with
    ⟨-, hno⟩ | ⟨disk₄, j', m, hentry', hr, hstep₄⟩
  · exact absurd hentry₂ (hno j 5)
  obtain ⟨rfl, rfl⟩ := honly j' m _ hentry'
  obtain ⟨hnone, hfree⟩ := hr.undoes hc
  refine ⟨_, _, _, _, hstep₁, hstep₂, hstep₃, hstep₄, openInv_remove hinv₃ rfl hentry' hr,
    ⟨fs, rfl⟩, fun k => (hnone k).trans (hf.entry k), hfree.trans hf.free, ?_, ?_⟩
  · exact ⟨_, rfl, hdata, hc.length⟩
  · have hs₁ := hinv₁.inv.sound fs rfl
    have hs₂ := hinv₂.inv.sound fs rfl
    have hmem : 6 ∈ sectorsOf disk₂ (.slot j') := by
      rw [hc.sectorsOf, hdata]
      decide
    calc sector disk₄ 6
        = sector disk₂ 6 := hr.saved.sector_eq
          (fun f hf hm => hf _ (hs₂.consistent.exclusive.eq_of_mem hm hmem)) (by simp)
      _ = sector disk₁ 6 := hc.saved.sector_eq
          (fun f _ hm => hc.free hmem (hs₁.mem_marked hm)) (by simp)
      _ = sector (fun _ => 0) 6 := hf.frame 6 (by decide)

theorem step_write_whole {hdr : FileHeader} {n : Int} {removed : Bool} (hs : OpenInv s)
    (ho : s.opened[0]? = some ⟨⟨hdr, 0⟩, n, removed⟩) (hlength : hdr.fileLength = 128)
    (source junk : Bytes) :
    ∃ disk', s.step (.write 0 source 128 junk) = some { s with
        disk := disk'
        opened := s.opened.set 0 ⟨⟨hdr, 0 + (128 : ℕ)⟩, n, removed⟩
        result := none } ∧
      ∀ k < 128, hdr.byte disk' k = source k := by
  have hvalid := (hs.opened _ (List.mem_of_getElem? ho)).valid
  obtain ⟨disk', hwrite, -, hbyte⟩ :=
    OpenFile.writeWhole_ok hvalid s.disk (n := 128) hlength source junk
  refine ⟨disk', step_of_ok hs.inv ?_, hbyte⟩
  rw [attempt, ho, Option.map_some, OpenFile.write]
  dsimp only
  rw [show (128 : BitVec 32).toInt = (128 : ℕ) by decide, hwrite]
  rfl

theorem byte_zero {hdr : FileHeader} {n : ℕ} {l : List ℕ} (h : hdr.sectors = n :: l)
    (disk : Bytes) : hdr.byte disk 0 = sector disk n 0 := by
  have hn : hdr.dataSector 0 = n := by
    unfold FileHeader.sectors at h
    cases hcount : hdr.count with
    | zero =>
      rw [hcount] at h
      cases h
    | succ c =>
      rw [hcount, List.range_succ_eq_map, List.map_cons] at h
      exact (List.cons.inj h).1
  exact congrArg (fun m => sector disk m 0) hn

/-- In every run of careful calls each write leaves all the rest of the disk as it is. -/
theorem writes_stay_in_their_file (disk : Bytes) (h : Reach step Careful (initial disk) s)
    {k : ℕ} {source : Bytes} {numBytes : BitVec 32} {junk : Bytes} {o : Opened}
    (hc : Careful s (.write k source numBytes junk)) (ho : s.opened[k]? = some o)
    (hstep : s.step (.write k source numBytes junk) = some s') :
    Untouched o s.disk s'.disk := by
  have hinv : s.fault = none → OpenInv s :=
    h.invariant (I := fun s => s.fault = none → OpenInv s) (fun _ => openInv_initial disk)
      fun s c s' hs hc hstep => openInv_step (hs (fault_of_step hstep)) hc hstep
  exact (step_write_untouched (hinv (fault_of_step hstep)) ho source numBytes junk (hc o ho)
    hstep).1

/-- `a` is opened and removed, and `b` created in the same sectors: what is then written to `a`
is in `b`. -/
theorem stale_write_changes_new_file :
    ∃ (s s' : State) (o : Opened) (i n : ℕ),
      exec step (fun _ _ => True) (initial fun _ => 0)
        [.format fun _ _ => 0, .create (letter 97) 128 fun _ _ => 0,
          .openFile (letter 97) fun _ _ => 0, .remove (letter 97) fun _ _ => 0,
          .create (letter 98) 128 fun _ _ => 0] = some s ∧
      s.opened[0]? = some o ∧ o.removed = true ∧
      s.step (.write 0 (fun _ => 1) 128 fun _ => 0) = some s' ∧
      (directoryOn s.disk).entry i = some (n, Directory.key (letter 98)) ∧
      (FileHeader.onDisk s.disk n).fileLength = 128 ∧
      (FileHeader.onDisk s.disk n).byte s.disk 0 = 0 ∧
      (FileHeader.onDisk s.disk n).byte s'.disk 0 = 1 ∧ ¬Untouched o s.disk s'.disk := by
  obtain ⟨s₁, s₂, s₃, s₄, hstep₁, hstep₂, hstep₃, hstep₄, h⟩ := removed_while_open
  obtain ⟨fs, hfs⟩ := h.fs
  obtain ⟨hdr, hopened, hsectors, hlength⟩ := h.opened
  obtain ⟨disk₅, i, n, hc, hstep₅⟩ := step_create_first h.inv.inv hfs (letter 98) 128 (by decide)
    (fun _ _ => 0) h.entry h.free
  have hinv₅ := openInv_create h.inv hfs hc
  have hnew := hc.sectors
  rw [h.free] at hnew
  -- the new file gets the sectors 5 and 6 that the removed one had
  obtain ⟨rfl, hdata⟩ : n = 5 ∧ (FileHeader.onDisk disk₅ n).sectors = [6] := List.cons.inj hnew
  have hentry₅ : (directoryOn disk₅).entry i = some (5, Directory.key (letter 98)) := by
    rw [hc.saved.entry, if_pos rfl]
  have hbefore : (FileHeader.onDisk disk₅ 5).byte disk₅ 0 = 0 := by
    have hmem : 6 ∈ sectorsOf disk₅ (.slot i) := by
      rw [hc.sectorsOf, hdata]
      decide
    rw [byte_zero hdata, hc.saved.sector_eq
      (fun f _ hm => hc.free hmem ((h.inv.inv.sound fs hfs).mem_marked hm)) (by simp), h.data]
    rfl
  have ho : s₄.opened[0]? = some ⟨⟨hdr, 0⟩, 5, true⟩ := by
    rw [hopened]
    rfl
  obtain ⟨disk₆, hstep₆, hbyte⟩ := step_write_whole hinv₅ ho hlength (fun _ => 1) fun _ => 0
  have hafter : (FileHeader.onDisk disk₅ 5).byte disk₆ 0 = 1 := by
    rw [byte_zero hdata, ← byte_zero hsectors]
    exact hbyte 0 (by decide)
  refine ⟨{ s₄ with disk := disk₅, result := some true }, _, _, i, 5, ?_, ho, rfl, hstep₆,
    hentry₅, hc.length, hbefore, hafter, fun hsame => ?_⟩
  · simp only [exec, if_true, hstep₁, hstep₂, hstep₃, hstep₄, hstep₅, Option.bind_some]
  · have hlength₅ := hc.length
    have hequal := hsame.contents i 5 _ hentry₅ (.inl rfl) 0 (by rw [hlength₅]; decide)
    rw [hafter, hbefore] at hequal
    exact absurd hequal (by decide)

/-- A file that was removed while it was open is written before its sector is taken again. -/
theorem stale_write_into_free_sector :
    ∃ (s s' : State) (o : Opened), Reach step Careful (initial fun _ => 0) s ∧
      s.opened[0]? = some o ∧ o.removed = true ∧
      s.step (.write 0 (fun _ => 1) 128 fun _ => 0) = some s' ∧
      o.file.hdr.byte s'.disk 0 = 1 ∧ Untouched o s.disk s'.disk := by
  obtain ⟨s₁, s₂, s₃, s₄, hstep₁, hstep₂, hstep₃, hstep₄, h⟩ := removed_while_open
  obtain ⟨hdr, hopened, hsectors, hlength⟩ := h.opened
  have hreach : Reach step Careful (initial fun _ => 0) s₄ := by
    refine (((Reach.single ?_ hstep₁).tail ?_ hstep₂).tail ?_ hstep₃).tail ?_ hstep₄
    · exact rfl
    · exact (show divRoundUpInt (128 : BitVec 32).toInt sectorSize ≤ numDirect by decide)
    · exact trivial
    · exact trivial
  have ho : s₄.opened[0]? = some ⟨⟨hdr, 0⟩, 5, true⟩ := by
    rw [hopened]
    rfl
  have hfree : ∀ n ∈ hdr.sectors, n ∉ (freeMapOn s₄.disk).marked := by
    intro n hn
    have hmem : n ∈ (freeMapOn s₄.disk).freeList := by
      rw [h.free]
      rw [hsectors, List.mem_singleton] at hn
      simp [hn]
    exact (Bitmap.mem_freeList.mp hmem).2
  have hcareful : Careful s₄ (.write 0 (fun _ => 1) 128 fun _ => 0) := by
    intro o ho'
    obtain rfl := Option.some.inj (ho.symm.trans ho')
    exact .inr hfree
  obtain ⟨disk', hstep, hbyte⟩ := step_write_whole h.inv ho hlength (fun _ => 1) fun _ => 0
  exact ⟨s₄, _, _, hreach, ho, rfl, hstep, hbyte 0 (by decide),
    writes_stay_in_their_file _ hreach hcareful ho hstep⟩

end State
end Nachos.Filesys
