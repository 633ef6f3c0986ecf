import Nachos.DiskConsistency
import Nachos.Lib.GuardedRun

namespace Nachos.Filesys
open Buffers Programs GuardedRun

/-- An `OpenFile` that `Open` returned, with the sector of its header and whether the file has
been removed since. -/
structure Opened where
  file : OpenFile
  sector : Int
  removed : Bool

def Opened.forget (sector : Int) (o : Opened) : Opened :=
  if o.sector = sector then { o with removed := true } else o

/-- `result` is what the last call returned, if it was `Create` or `Remove`; `fault` is what
stopped it. -/
structure State where
  disk : Bytes
  fs : Option FileSystem
  opened : List Opened
  result : Option Bool
  fault : Option Fault

inductive Call where
  | format (junk : Junk)
  | create (name : Bytes) (initialSize : BitVec 32) (junk : Junk)
  | remove (name : Bytes) (junk : Junk)
  | openFile (name : Bytes) (junk : Junk)
  | write (k : ℕ) (source : Bytes) (numBytes : BitVec 32) (junk : Bytes)

namespace State

/-- A call, where there is a file system or an open file to make it on. -/
def attempt (s : State) : Call → Option (Except Fault State)
  | .format junk => some do
    let (fs, disk) ← FileSystem.format s.disk junk
    return { s with disk, fs := some fs, result := none }
  | .create name initialSize junk => s.fs.map fun fs => do
    let (r, disk) ← fs.create s.disk name initialSize junk
    return { s with disk, result := some r }
  | .remove name junk => s.fs.map fun fs => do
    let (r, disk) ← fs.remove s.disk name junk
    let forget := Opened.forget ((directoryOn s.disk).find name)
    return { s with disk, opened := if r then s.opened.map forget else s.opened, result := some r }
  | .openFile name junk => s.fs.map fun fs => do
    let new := (← fs.openFile s.disk name junk).map fun file =>
      ⟨file, (directoryOn s.disk).find name, false⟩
    return { s with opened := s.opened ++ new.toList, result := none }
  | .write k source numBytes junk => s.opened[k]?.map fun o => do
    let (_, file, disk) ← o.file.write s.disk source numBytes.toInt junk
    return { s with disk, opened := s.opened.set k { o with file }, result := none }

def step (s : State) (c : Call) : Option State :=
  if s.fault.isSome then none
  else (s.attempt c).map fun r =>
    match r with
    | .ok s' => s'
    | .error fault => { s with result := none, fault := some fault }

def initial (disk : Bytes) : State := ⟨disk, none, [], none, none⟩

structure Inv (s : State) : Prop where
  fault : s.fault = none
  sound : ∀ fs, s.fs = some fs → Sound fs s.disk

variable {s s' : State}

theorem step_of_ok {c : Call} (hs : Inv s) (h : s.attempt c = some (.ok s')) :
    s.step c = some s' := by
  rw [step, hs.fault, h]
  rfl

theorem step_format (hs : Inv s) (junk : Junk) :
    ∃ fs disk', Formatted fs s.disk disk' ∧
      s.step (.format junk) = some { s with disk := disk', fs := some fs, result := none } := by
  obtain ⟨fs, disk', hformat, hf⟩ := FileSystem.format_ok s.disk junk
  refine ⟨fs, disk', hf, step_of_ok hs ?_⟩
  rw [attempt, hformat]
  rfl

theorem fs_of_step {c : Call} {r : FileSystem → Except Fault State}
    (hc : s.attempt c = s.fs.map r) (h : s.step c = some s') : ∃ fs, s.fs = some fs := by
  cases hfs : s.fs with
  | none =>
    rw [step, hc, hfs] at h
    split_ifs at h
    cases h
  | some fs => exact ⟨fs, rfl⟩

section Calls
variable {fs : FileSystem} (hs : Inv s) (hfs : s.fs = some fs)
include hs hfs

theorem step_create (name : Bytes) {size : BitVec 32}
    (hsize : FileHeader.sectorsFor size ≤ numDirect) (junk : Junk) :
    (s.step (.create name size junk) = some { s with result := some false } ∧
      ((∃ j t, (directoryOn s.disk).entry j = some (t, Directory.key name)) ∨
        (∀ j < numDirEntries, (directoryOn s.disk).entry j ≠ none) ∨
        (freeMapOn s.disk).freeList.length < FileHeader.sectorsFor size + 1)) ∨
    ∃ disk' i n, Created s.disk disk' name size i n ∧
      s.step (.create name size junk) = some { s with disk := disk', result := some true } := by
  rcases FileSystem.create_cases (hs.sound fs hfs) junk name hsize with
    ⟨hcreate, hwhy⟩ | ⟨disk', i, n, hcreate, hc⟩
  · refine .inl ⟨step_of_ok hs ?_, hwhy⟩
    rw [attempt, hfs, Option.map_some, hcreate]
    rfl
  · refine .inr ⟨disk', i, n, hc, step_of_ok hs ?_⟩
    rw [attempt, hfs, Option.map_some, hcreate]
    rfl

theorem step_remove (name : Bytes) (junk : Junk) :
    (s.step (.remove name junk) = some { s with result := some false } ∧
      ∀ j t, (directoryOn s.disk).entry j ≠ some (t, Directory.key name)) ∨
    ∃ disk' i n, (directoryOn s.disk).entry i = some (n, Directory.key name) ∧
      Removed s.disk disk' i ∧
      s.step (.remove name junk) = some { s with
        disk := disk', opened := s.opened.map (Opened.forget n), result := some true } := by
  rcases FileSystem.remove_cases (hs.sound fs hfs) junk name with
    ⟨hremove, hwhy⟩ | ⟨disk', i, n, hfind, hentry, hremove, hr⟩
  · refine .inl ⟨step_of_ok hs ?_, hwhy⟩
    rw [attempt, hfs, Option.map_some, hremove]
    rfl
  · refine .inr ⟨disk', i, n, hentry, hr, step_of_ok hs ?_⟩
    rw [attempt, hfs, Option.map_some, hremove, hfind]
    rfl

theorem step_openFile (name : Bytes) (junk : Junk) :
    (s.step (.openFile name junk) = some { s with result := none } ∧
      ∀ j t, (directoryOn s.disk).entry j ≠ some (t, Directory.key name)) ∨
    ∃ i n, (directoryOn s.disk).entry i = some (n, Directory.key name) ∧
      s.step (.openFile name junk) = some { s with
        opened := s.opened ++ [⟨⟨FileHeader.onDisk s.disk n, 0⟩, n, false⟩], result := none } := by
  rcases FileSystem.openFile_cases (hs.sound fs hfs) junk name with
    ⟨hopen, hwhy⟩ | ⟨i, n, hfind, hentry, hopen⟩
  · refine .inl ⟨step_of_ok hs ?_, hwhy⟩
    rw [attempt, hfs, Option.map_some, hopen, except_ok_bind]
    dsimp only [Option.map_none, Option.toList_none]
    rw [List.append_nil]
    rfl
  · refine .inr ⟨i, n, hentry, step_of_ok hs ?_⟩
    rw [attempt, hfs, Option.map_some, hopen, except_ok_bind, Option.map_some, hfind]
    rfl

end Calls

/-- The calls that administer the disk; a new file fits one header. -/
def Administers (_ : State) : Call → Prop
  | .format _ => True
  | .create _ initialSize _ => divRoundUpInt initialSize.toInt sectorSize ≤ numDirect
  | .remove _ _ => True
  | _ => False

theorem sectorsFor_le {size : BitVec 32} (h : divRoundUpInt size.toInt sectorSize ≤ numDirect) :
    FileHeader.sectorsFor size ≤ numDirect := by
  unfold FileHeader.sectorsFor
  omega

theorem inv_initial (disk : Bytes) : Inv (initial disk) :=
  ⟨rfl, fun fs h => absurd h (by simp [initial])⟩

theorem Inv.result {fs : FileSystem} (hs : Inv s) {disk' : Bytes} (hfs : s.fs = some fs)
    (hsound : Sound fs disk') (opened : List Opened) (result : Option Bool) :
    Inv { s with disk := disk', opened, result } := by
  refine ⟨hs.fault, fun fs' h => ?_⟩
  obtain rfl := Option.some.inj (hfs.symm.trans h)
  exact hsound

theorem administer {c : Call} (hs : Inv s) (hc : Administers s c) (h : s.step c = some s') :
    Inv s' ∧ (s'.result = some false → s'.disk = s.disk) := by
  cases c with
  | format junk =>
    obtain ⟨fs, disk', hf, hstep⟩ := step_format hs junk
    obtain rfl := Option.some.inj (h.symm.trans hstep)
    refine ⟨⟨hs.fault, fun fs' h => ?_⟩, fun h => absurd h (by simp)⟩
    obtain rfl := Option.some.inj h
    exact hf.sound
  | create name size junk =>
    obtain ⟨fs, hfs⟩ := fs_of_step rfl h
    rcases step_create hs hfs name (sectorsFor_le hc) junk with
      ⟨hstep, -⟩ | ⟨disk', i, n, hcreated, hstep⟩
    · obtain rfl := Option.some.inj (h.symm.trans hstep)
      exact ⟨⟨hs.fault, hs.sound⟩, fun _ => rfl⟩
    · obtain rfl := Option.some.inj (h.symm.trans hstep)
      exact ⟨hs.result hfs (hcreated.sound (hs.sound fs hfs)) _ _, fun h => absurd h (by simp)⟩
  | remove name junk =>
    obtain ⟨fs, hfs⟩ := fs_of_step rfl h
    rcases step_remove hs hfs name junk with ⟨hstep, -⟩ | ⟨disk', i, n, -, hremoved, hstep⟩
    · obtain rfl := Option.some.inj (h.symm.trans hstep)
      exact ⟨⟨hs.fault, hs.sound⟩, fun _ => rfl⟩
    · obtain rfl := Option.some.inj (h.symm.trans hstep)
      exact ⟨hs.result hfs (hremoved.sound (hs.sound fs hfs)) _ _, fun h => absurd h (by simp)⟩
  | openFile name junk => exact hc.elim
  | write k source numBytes junk => exact hc.elim

/-- From any disk, whatever is formatted, created and removed: no `ASSERT` fires, what is on the
disk is consistent after each call, and a call that returns `FALSE` has changed nothing. -/
theorem disk_consistent_in_every_run (disk : Bytes)
    (h : Reach step Administers (initial disk) s) :
    s.fault = none ∧ (s.fs.isSome → Consistent s.disk) ∧
      ∀ c s', Administers s c → s.step c = some s' → s'.result = some false →
        s'.disk = s.disk := by
  have hinv : Inv s := h.invariant (inv_initial disk) fun s c s' hs hc hstep =>
    (administer hs hc hstep).1
  refine ⟨hinv.fault, fun hfs => ?_, fun c s' hc hstep => (administer hinv hc hstep).2⟩
  obtain ⟨fs, hfs⟩ := Option.isSome_iff_exists.mp hfs
  exact (hinv.sound fs hfs).consistent

theorem step_create_first {fs : FileSystem} (hs : Inv s) (hfs : s.fs = some fs) (name : Bytes)
    (size : BitVec 32) (hsize : FileHeader.sectorsFor size ≤ numDirect) (junk : Junk)
    (hentry : ∀ i, (directoryOn s.disk).entry i = none)
    (hfree : (freeMapOn s.disk).freeList = List.range' 5 1019) :
    ∃ disk' i n, Created s.disk disk' name size i n ∧
      s.step (.create name size junk) = some { s with disk := disk', result := some true } := by
  rcases step_create hs hfs name hsize junk with ⟨-, hwhy⟩ | hcreated
  · rw [hfree, List.length_range'] at hwhy
    simp only [hentry] at hwhy
    rcases hwhy with ⟨j, t, h⟩ | h | h
    · cases h
    · exact absurd rfl (h 0 (by decide))
    · unfold numDirect sectorSize at hsize
      omega
  · exact hcreated

/-- A disk of zeros is formatted, and a file of 200 bytes created. -/
theorem disk_consistent_with_file :
    ∃ s : State, Reach step Administers (initial fun _ => 0) s ∧
      (∃ i n nm, (directoryOn s.disk).entry i = some (n, nm)) ∧ s.fault = none ∧
      Consistent s.disk := by
  obtain ⟨fs, disk₁, hf, hstep₁⟩ := step_format (inv_initial fun _ => 0) fun _ _ => 0
  have hok₁ : Administers (initial fun _ => 0) (.format fun _ _ => 0) := trivial
  have hinv₁ := (administer (inv_initial _) hok₁ hstep₁).1
  obtain ⟨disk₂, i, n, hcreated, hstep₂⟩ := step_create_first hinv₁ rfl (fun _ => 97)
    200 (by decide) (fun _ _ => 0) hf.entry hf.free
  have hreach := (Reach.single hok₁ hstep₁).tail (show divRoundUpInt _ _ ≤ _ by decide) hstep₂
  obtain ⟨hfault, hconsistent, -⟩ := disk_consistent_in_every_run _ hreach
  refine ⟨_, hreach, ⟨i, n, Directory.key fun _ => 97, ?_⟩, hfault, hconsistent rfl⟩
  exact (hcreated.saved.entry i).trans (if_pos rfl)

end State
end Nachos.Filesys
