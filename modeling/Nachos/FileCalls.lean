import Nachos.FileTable

namespace Nachos
open TwosComplement Programs GuardedRun

namespace OpenFile
variable {f : OpenFile} {h h' : Host} {n o : ℕ} {env : Env}

theorem core_currentOffset (f : OpenFile) (p : Int) :
    ({ f with currentOffset := p } : OpenFile).core = f.core := rfl

theorem lseek_eq_ok {offset whence : Int} (hl : 0 ≤ (h.lseek f.file offset whence).1) :
    f.lseek h offset whence = .ok (h.lseek f.file offset whence).2 := if_pos hl

theorem writeFile_ok {buffer : ℕ → UInt8} {nBytes : Int}
    (hw : f.writeFile h env buffer nBytes = .ok h') :
    (h.write env f.file buffer nBytes).1 = nBytes ∧ h' = (h.write env f.file buffer nBytes).2 := by
  unfold writeFile at hw
  dsimp only at hw
  split_ifs at hw with hres
  cases hw
  exact ⟨hres, rfl⟩

theorem delete_ok (hd : f.delete h = .ok h') : h' = h.setFd f.file none := by
  unfold delete at hd
  dsimp only at hd
  split_ifs at hd
  cases hd
  rfl

section File
variable (hs : f.socketH = false) (hfd : h.fds f.file = some (.file n o)) (ho : (o : Int) ≤ intMax)
include hfd ho

theorem getCurrentPos_file : f.getCurrentPos h = ((o : Int), { f with currentOffset := o }, h) := by
  simp only [getCurrentPos, tell, Host.lseek_cur hfd ho]

theorem lseek_here : f.lseek h o 0 = .ok h := by
  have hl := Host.lseek_set hfd (Int.natCast_nonneg o) ho
  rw [Int.toNat_natCast, Host.setFd_self hfd] at hl
  rw [lseek_eq_ok (by rw [hl]; exact Int.natCast_nonneg o), hl]

include hs

theorem read_file (hcur : f.currentOffset = o) (numBytes : Int) :
    f.read h env numBytes = .ok (-1, [], { f with currentOffset := wrap (o + -1) }, h) ∨
    ∃ bytes, bytes <+: (h.data n).drop o ∧
      f.read h env numBytes = .ok (bytes.length, bytes,
        { f with currentOffset := wrap (o + bytes.length) },
        h.setFd f.file (some (.file n (o + bytes.length)))) := by
  unfold read readAt
  rw [if_neg (by rw [hs]; nofun), hcur, lseek_here hfd ho]
  rcases Host.read_file hfd env numBytes with hr | ⟨bytes, hpre, hr⟩
  · left
    change Except.ok _ = _
    rw [hr]
  · right
    refine ⟨bytes, hpre, ?_⟩
    change Except.ok _ = _
    rw [hr]

theorem write_file (hcur : f.currentOffset = o) {buffer : ℕ → UInt8} {numBytes r : Int}
    {f' : OpenFile} (hw : f.write h env buffer numBytes = .ok (r, f', h')) :
    r = numBytes ∧ f' = { f with currentOffset := wrap (o + numBytes) } ∧
      h' = (h.write env f.file buffer numBytes).2 ∧
      (h.write env f.file buffer numBytes).1 = numBytes := by
  unfold write writeAt at hw
  rw [if_neg (by rw [hs]; nofun), hcur, lseek_here hfd ho] at hw
  obtain ⟨p, hp, hw⟩ := except_bind_ok hw
  obtain ⟨h₁, hh₁, hp⟩ :=
    except_bind_ok (show (f.writeFile h env buffer numBytes >>= _) = _ from hp)
  obtain ⟨hres, rfl⟩ := writeFile_ok hh₁
  cases hp
  cases hw
  exact ⟨rfl, rfl, rfl, hres⟩

end File

theorem length_file (hfd : h.fds f.file = some (.file n o))
    (hlen : ((h.data n).length : Int) ≤ intMax) : f.length h = .ok (((h.data n).length : Int),
      h.setFd f.file (some (.file n (h.data n).length))) := by
  have hl := Host.lseek_end hfd hlen
  have hset : (h.setFd f.file (some (.file n (h.data n).length))).fds f.file =
      some (.file n (h.data n).length) := Function.update_self ..
  unfold length
  rw [lseek_eq_ok (by rw [hl]; exact Int.natCast_nonneg _), hl]
  change Except.ok (f.tell _) = _
  rw [tell, Host.lseek_cur hset hlen]

theorem seek_file (hfd : h.fds f.file = some (.file n o)) {pos : Int} (hpos : 0 ≤ pos)
    (hmax : pos ≤ intMax) : f.seek h pos = .ok ({ f with currentOffset := pos },
      h.setFd f.file (some (.file n pos.toNat))) := by
  have hl := Host.lseek_set hfd hpos hmax
  have hset : (h.setFd f.file (some (.file n pos.toNat))).fds f.file =
      some (.file n pos.toNat) := Function.update_self ..
  unfold seek
  rw [lseek_eq_ok (by rw [hl]; exact hpos), hl]
  change Except.ok (_, (f.tell _).2) = _
  rw [tell, Host.lseek_cur hset (by omega), Int.toNat_of_nonneg hpos]

theorem seek_neg (hfd : h.fds f.file = some (.file n o)) {pos : Int} (hpos : pos < 0) :
    f.seek h pos = .error (.abort (.lseek pos 0)) := by
  have hl := Host.lseek_set_neg hfd hpos
  have hlseek : f.lseek h pos 0 = .error (.abort (.lseek pos 0)) := by
    unfold lseek
    rw [hl]
    rfl
  unfold seek
  rw [hlseek]
  rfl

end OpenFile

namespace Sys
variable {κ α : Type} {k k' : Kernel κ} {i : Fin 20} {env : Env}

theorem ret_ok {v : Int} {u : Unit} (h : ret v k = .ok (u, k')) :
    files k' = files k ∧ k'.machine.registers 2 = v := by
  cases h
  exact ⟨rfl, rfl⟩

theorem onFile_ok {m : OpenFile → Host → Except Stop (α × OpenFile × Host)} {a : α}
    (h : onFile i m k = .ok (a, k')) : ∃ f f' h', k.fileSystem.openfile i = some f ∧
      m f k.host = .ok (a, f', h') ∧ files k' = (k.fileSystem.setFile i (some f'), h') := by
  unfold onFile at h
  split at h
  · cases h
  · next f hf =>
    split at h
    · cases h
    · next f' h' hm =>
      cases h
      exact ⟨f, f', h', hf, hm, rfl⟩

theorem openfileAt_ok {id : Int} {r : Option (Fin 20 × OpenFile)}
    (h : openfileAt id k = .ok (r, k')) : k' = k ∧
      ∃ j : Fin 20, (j : Int) = id ∧ r = (k.fileSystem.openfile j).map fun f => (j, f) := by
  unfold openfileAt at h
  split at h
  · next hid =>
    cases h
    refine ⟨rfl, ⟨id.toNat, by omega⟩, ?_, rfl⟩
    simp only [Int.toNat_of_nonneg hid.1]
  · cases h

theorem readRegister_bind {num : ℕ} {g : Int → Sys κ α} :
    (readRegister num >>= g) k = g (regs k num) k := rfl

theorem openfileAt_bind_ok {id : Int} {g : Option (Fin 20 × OpenFile) → Sys κ α} {a : α}
    (h : (openfileAt id >>= g) k = .ok (a, k')) : ∃ j : Fin 20, (j : Int) = id ∧
      ((k.fileSystem.openfile j = none ∧ g none k = .ok (a, k')) ∨
        ∃ f, k.fileSystem.openfile j = some f ∧ g (some (j, f)) k = .ok (a, k')) := by
  obtain ⟨r, k₁, hk₁, h⟩ := bind_ok h
  obtain ⟨rfl, j, hj, rfl⟩ := openfileAt_ok hk₁
  refine ⟨j, hj, ?_⟩
  cases hf : k₁.fileSystem.openfile j with
  | none =>
    rw [hf] at h
    exact .inl ⟨rfl, h⟩
  | some f =>
    rw [hf] at h
    exact .inr ⟨f, rfl, h⟩

theorem sameTable_setFile {x : Files} {f f' : OpenFile} {h' : Host}
    (hf : x.1.openfile i = some f) (hcore : f'.core = f.core)
    (hwithin : ∀ n, ((x.2.data n).length : Int) ≤ intMax → ((h'.data n).length : Int) ≤ intMax) :
    Files.SameTable x (x.1.setFile i (some f'), h') := by
  refine ⟨rfl, fun j => ?_, hwithin⟩
  by_cases hj : j = i
  · subst hj
    simp [FileSystem.setFile, hf, hcore]
  · simp [FileSystem.setFile, Function.update_of_ne hj]

theorem quiet_setFile {x : Files} {f f' : OpenFile} (hf : x.1.openfile i = some f)
    (hcore : f'.core = f.core) : Files.Quiet x (x.1.setFile i (some f'), x.2) :=
  ⟨sameTable_setFile hf hcore fun _ h => h, rfl⟩

theorem moved_setFile {x : Files} {f f' : OpenFile} {n o₀ o : ℕ} (hf : x.1.openfile i = some f)
    (hcore : f'.core = f.core) (hfd : x.2.fds f.file = some (.file n o₀))
    (ho : (o : Int) ≤ intMax) :
    Files.Moved i o x (x.1.setFile i (some f'), x.2.setFd f.file (some (.file n o))) :=
  ⟨sameTable_setFile hf hcore fun _ h => h, ho, f, n, o₀, hf, hfd, rfl⟩

end Sys

namespace Files
variable {x x' : Files} {i : Fin 20} {o : ℕ}

def offset (x : Files) (i : Fin 20) : Option ℕ :=
  match (x.1.openfile i).bind fun f => x.2.fds f.file with
  | some (.file _ o) => some o
  | _ => none

def contents (x : Files) (i : Fin 20) : Option (List UInt8) :=
  match (x.1.openfile i).bind fun f => x.2.fds f.file with
  | some (.file n _) => some (x.2.data n)
  | _ => none

def fileLength (x : Files) (i : Fin 20) : Option ℕ := (x.contents i).map List.length

/-- `currentOffset` is the offset of the host. -/
def Synced (x : Files) (i : Fin 20) (o : ℕ) : Prop :=
  ∃ f n, x.1.openfile i = some f ∧ x.2.fds f.file = some (.file n o) ∧ f.currentOffset = o

theorem offset_eq {f : OpenFile} {n : ℕ} (hf : x.1.openfile i = some f)
    (hfd : x.2.fds f.file = some (.file n o)) : x.offset i = some o := by
  simp only [offset, hf, Option.bind_some, hfd]

theorem contents_eq {f : OpenFile} {n : ℕ} (hf : x.1.openfile i = some f)
    (hfd : x.2.fds f.file = some (.file n o)) : x.contents i = some (x.2.data n) := by
  simp only [contents, hf, Option.bind_some, hfd]

theorem fileLength_eq {f : OpenFile} {n : ℕ} (hf : x.1.openfile i = some f)
    (hfd : x.2.fds f.file = some (.file n o)) : x.fileLength i = some (x.2.data n).length := by
  rw [fileLength, contents_eq hf hfd, Option.map_some]

theorem fileLength_free (hf : x.1.openfile i = none) : x.fileLength i = none := by
  simp only [fileLength, contents, hf, Option.bind_none, Option.map_none]

theorem SameTable.descriptor (h : SameTable x x') (i : Fin 20) :
    ((x'.1.openfile i).bind fun f => x'.2.fds f.file) =
      (x.1.openfile i).bind fun f => x'.2.fds f.file := by
  have hc := congrArg (·.bind fun c : ℕ × Int × Bool => x'.2.fds c.1) (h.core i)
  rwa [Option.bind_map, Option.bind_map] at hc

theorem Quiet.offset (h : Quiet x x') (i : Fin 20) : x'.offset i = x.offset i := by
  unfold Files.offset
  rw [h.toSameTable.descriptor i, h.fds]

theorem Quiet.contents (h : Quiet x x') (hdata : x'.2.data = x.2.data) :
    x'.contents = x.contents := by
  funext i
  unfold Files.contents
  rw [h.toSameTable.descriptor i, h.fds, hdata]

theorem Moved.offset_self (h : Moved i o x x') : x'.offset i = some o := by
  obtain ⟨f, n, o₀, hf, -, hfds⟩ := h.fds
  unfold Files.offset
  rw [h.toSameTable.descriptor i, hf, hfds]
  simp only [Option.bind_some, Function.update_self]

theorem Moved.offset_other (hx : Ok x) (h : Moved i o x x') {j : Fin 20} (hj : j ≠ i) :
    x'.offset j = x.offset j := by
  obtain ⟨f, n, o₀, hf, -, hfds⟩ := h.fds
  unfold Files.offset
  rw [h.toSameTable.descriptor j, hfds]
  cases hg : x.1.openfile j with
  | none => rfl
  | some g =>
    have hne : g.file ≠ f.file := fun heq => hj (hx.distinct j i g f hg hf heq)
    simp only [Option.bind_some, Function.update_of_ne hne]

/-- A file that is not a socket has an offset and a length that the host can express. -/
theorem Ok.file (hx : Ok x) {f : OpenFile} (hf : x.1.openfile i = some f) (ht : f.type ≠ 2) :
    f.socketH = false ∧ ∃ n o, x.2.fds f.file = some (.file n o) ∧ (o : Int) ≤ intMax ∧
      ((x.2.data n).length : Int) ≤ intMax := by
  refine ⟨?_, (hx.backed i f hf).file ht⟩
  by_contra hs
  exact ht ((hx.derived i f hf).mp (by simpa using hs))

theorem Ok.offset_file (hx : Ok x) {f : OpenFile} (hf : x.1.openfile i = some f)
    (ht : f.type ≠ 2) : ∃ o, x.offset i = some o := by
  obtain ⟨-, n, o, hfd, -⟩ := hx.file hf ht
  exact ⟨o, offset_eq hf hfd⟩

theorem Ok.offset_socket (hx : Ok x) {f : OpenFile} (hf : x.1.openfile i = some f)
    (ht : f.type = 2) : x.offset i = none := by
  simp only [offset, hf, Option.bind_some, (hx.backed i f hf).socket ht]

theorem Ok.fileLength_socket (hx : Ok x) {f : OpenFile} (hf : x.1.openfile i = some f)
    (ht : f.type = 2) : x.fileLength i = none := by
  simp only [fileLength, contents, hf, Option.bind_some, (hx.backed i f hf).socket ht,
    Option.map_none]

theorem Ok.of_fd (hx : Ok x) {f : OpenFile} {n : ℕ} (hf : x.1.openfile i = some f)
    (hfd : x.2.fds f.file = some (.file n o)) : f.socketH = false ∧ (o : Int) ≤ intMax ∧
      ((x.2.data n).length : Int) ≤ intMax := by
  have ht : f.type ≠ 2 := by
    intro ht
    cases ((hx.backed i f hf).socket ht).symm.trans hfd
  obtain ⟨hs, n', o', hfd', ho, hlen⟩ := hx.file hf ht
  cases hfd.symm.trans hfd'
  exact ⟨hs, ho, hlen⟩

end Files

namespace Sys
variable {κ α : Type} {k k' : Kernel κ} {i : Fin 20} {env : Env}
open Files (Quiet Moved Synced)

theorem getCurrentPos_spec (hx : Files.Ok (files k)) {p : Int}
    (h : getCurrentPos i k = .ok (p, k')) : Quiet (files k) (files k') ∧
      (files k').contents = (files k).contents ∧
      ∀ o : ℕ, (files k).offset i = some o → p = o ∧ Synced (files k') i o := by
  obtain ⟨f, f', h', hf, hm, hk⟩ := onFile_ok h
  rw [hk]
  by_cases ht : f.type = 2
  · have hfd : k.host.fds f.file = _ := (hx.backed i f hf).socket ht
    have hpos : f.getCurrentPos k.host = (-1, { f with currentOffset := -1 }, k.host) := by
      simp only [OpenFile.getCurrentPos, OpenFile.tell, Host.lseek, hfd]
    rw [hpos] at hm
    cases hm
    have hquiet := quiet_setFile (x := files k) hf (OpenFile.core_currentOffset f (-1))
    refine ⟨hquiet, hquiet.contents rfl, fun o ho => ?_⟩
    cases (hx.offset_socket hf ht).symm.trans ho
  · obtain ⟨-, n, o, hfd, ho, -⟩ := hx.file hf ht
    rw [OpenFile.getCurrentPos_file (h := k.host) hfd ho] at hm
    cases hm
    have hquiet := quiet_setFile (x := files k) hf (OpenFile.core_currentOffset f o)
    refine ⟨hquiet, hquiet.contents rfl, fun o' ho' => ?_⟩
    cases (Files.offset_eq hf hfd).symm.trans ho'
    exact ⟨rfl, _, n, Function.update_self .., hfd, rfl⟩

theorem read_spec (hx : Files.Ok (files k)) {o : ℕ} (hs : Synced (files k) i o) {buf : Buffer}
    {count : Int} {r : Int × Buffer} (h : read env i buf count k = .ok (r, k')) :
    (r.1 ≤ 0 ∧ Quiet (files k) (files k')) ∨
      0 < r.1 ∧ Moved i (o + r.1.toNat) (files k) (files k') ∧
        ∃ data bytes, (files k).contents i = some data ∧ bytes <+: data.drop o ∧
          r = ((bytes.length : Int), buf.store bytes) := by
  obtain ⟨f, n, hf, hfd, hcur⟩ := hs
  obtain ⟨q, k₁, hq, h⟩ := bind_ok h
  obtain ⟨_, k₂, hk₂, h⟩ := bind_ok h
  have hfiles : files k₂ = files k₁ := keeps_files (keeps_setOverrun _) _ _ _ hk₂
  cases h
  obtain ⟨g, g', h', hg, hm, hk₁⟩ := onFile_ok hq
  rw [hfiles, hk₁]
  obtain rfl : g = f := Option.some.inj (hg.symm.trans hf)
  obtain ⟨hsock, ho, hlen⟩ := hx.of_fd hg hfd
  obtain ⟨q', hq', hm⟩ := except_bind_ok hm
  rcases OpenFile.read_file hsock hfd ho hcur count with hr | ⟨bytes, hpre, hr⟩
  · cases hr.symm.trans hq'
    cases hm
    exact .inl ⟨show (-1 : Int) ≤ 0 by decide, quiet_setFile hg (OpenFile.core_currentOffset _ _)⟩
  · cases hr.symm.trans hq'
    cases hm
    have hle := hpre.length_le
    rw [List.length_drop] at hle
    change ((bytes.length : Int) ≤ 0 ∧ _) ∨
      0 < (bytes.length : Int) ∧ Moved i (o + bytes.length) _ _ ∧ _
    rcases Nat.eq_zero_or_pos bytes.length with hz | hpos
    · refine .inl ⟨by omega, ?_⟩
      rw [hz, add_zero, Host.setFd_self hfd]
      exact quiet_setFile hg (OpenFile.core_currentOffset _ _)
    · have hmax : ((o + bytes.length : ℕ) : Int) ≤ intMax := by omega
      exact .inr ⟨by omega, moved_setFile hg (OpenFile.core_currentOffset _ _) hfd hmax,
        _, bytes, Files.contents_eq hg hfd, hpre, rfl⟩

/-- `n` bytes of the file in slot `i` have been written at offset `o`. -/
def Wrote (i : Fin 20) (o n : ℕ) (x x' : Files) : Prop :=
  ∃ data bytes, x.contents i = some data ∧ bytes.length = n ∧
    x'.contents i = some (Host.overwrite data o bytes)

theorem write_spec (hx : Files.Ok (files k)) {o : ℕ} (hs : Synced (files k) i o) {buf : Buffer}
    {count r : Int} (h : write env i buf count k = .ok (r, k')) :
    (r ≤ 0 ∧ Quiet (files k) (files k')) ∨
      0 < r ∧ Moved i (o + r.toNat) (files k) (files k') ∧
        Wrote i o r.toNat (files k) (files k') := by
  obtain ⟨f, n, hf, hfd, hcur⟩ := hs
  obtain ⟨q, k₁, hq, h⟩ := bind_ok h
  obtain ⟨_, k₂, hk₂, h⟩ := bind_ok h
  have hfiles : files k₂ = files k₁ := keeps_files (keeps_setOverrun _) _ _ _ hk₂
  cases h
  obtain ⟨g, g', h', hg, hm, hk₁⟩ := onFile_ok hq
  rw [hfiles, hk₁]
  obtain rfl : g = f := Option.some.inj (hg.symm.trans hf)
  obtain ⟨hsock, ho, hlen⟩ := hx.of_fd hg hfd
  obtain ⟨rfl, rfl, rfl, hres⟩ := OpenFile.write_file hsock hfd ho hcur hm
  rcases Host.write_file hfd ho env buf.byte hres with ⟨hle, heq⟩ | ⟨hpos, hmax, heq⟩
  · refine .inl ⟨hle, ?_⟩
    rw [heq]
    exact quiet_setFile hg (OpenFile.core_currentOffset _ _)
  · have hcontents := Files.contents_eq hg hfd
    refine .inr ⟨hpos, ⟨sameTable_setFile hg (OpenFile.core_currentOffset _ _) fun m hm => ?_,
      by omega, g, n, o, hg, hfd, ?_⟩, _, (List.range r.toNat).map buf.byte, hcontents, ?_, ?_⟩
    · -- the file grows to the end of what was written, which `off_t` can express
      rw [heq]
      dsimp only
      by_cases hmn : m = n
      · subst hmn
        rw [Function.update_self, Host.length_overwrite, List.length_map, List.length_range]
        omega
      · rw [Function.update_of_ne hmn]
        exact hm
    · rw [heq]
    · rw [List.length_map, List.length_range]
    · rw [heq, Files.contents_eq (Function.update_self ..) (Function.update_self ..)]
      exact congrArg some (Function.update_self ..)

/-- `Length` leaves the host's offset at the end of the file. -/
theorem length_spec (hx : Files.Ok (files k)) {f : OpenFile}
    (hf : k.fileSystem.openfile i = some f) (ht : f.type ≠ 2) {r : Int}
    (h : length i k = .ok (r, k')) : ∃ l : ℕ, (files k).fileLength i = some l ∧ r = l ∧
      (l : Int) ≤ intMax ∧ Moved i l (files k) (files k') := by
  obtain ⟨g, g', h', hg, hm, hk⟩ := onFile_ok h
  obtain rfl : g = f := Option.some.inj (hg.symm.trans hf)
  obtain ⟨-, n, o, hfd, ho, hlen⟩ := hx.file hf ht
  obtain ⟨q, hq, hm⟩ := except_bind_ok hm
  cases (OpenFile.length_file hfd hlen).symm.trans hq
  cases hm
  refine ⟨_, Files.fileLength_eq hf hfd, rfl, hlen, ?_⟩
  rw [hk]
  exact moved_setFile hf rfl hfd hlen

theorem seek_spec (hx : Files.Ok (files k)) {f : OpenFile}
    (hf : k.fileSystem.openfile i = some f) (ht : f.type ≠ 2) {pos : Int} (hmax : pos ≤ intMax)
    {u : Unit} (h : seek i pos k = .ok (u, k')) :
    0 ≤ pos ∧ Moved i pos.toNat (files k) (files k') := by
  obtain ⟨g, g', h', hg, hm, hk⟩ := onFile_ok h
  obtain rfl : g = f := Option.some.inj (hg.symm.trans hf)
  obtain ⟨-, n, o, hfd, ho, hlen⟩ := hx.file hf ht
  obtain ⟨q, hq, hm⟩ := except_bind_ok hm
  rcases lt_or_ge pos 0 with hneg | hpos
  · cases (OpenFile.seek_neg hfd hneg).symm.trans hq
  · cases (OpenFile.seek_file hfd hpos hmax).symm.trans hq
    cases hm
    rw [hk]
    exact ⟨hpos, moved_setFile hf (OpenFile.core_currentOffset _ _) hfd (by omega)⟩

theorem connect_quiet {r : Int} (h : connect env i k = .ok (r, k')) :
    Quiet (files k) (files k') := by
  obtain ⟨f, f', h', hf, hm, hk⟩ := onFile_ok h
  rw [hk]
  have hcore : (f.connect env).2.core = f.core := by
    unfold OpenFile.connect
    split_ifs <;> rfl
  cases hm
  exact quiet_setFile hf hcore

theorem read_socket (hx : Files.Ok (files k)) {f : OpenFile}
    (hf : k.fileSystem.openfile i = some f) (ht : f.type = 2) {buf : Buffer} {count : Int}
    {r : Int × Buffer} (h : read env i buf count k = .ok (r, k')) :
    Quiet (files k) (files k') := by
  obtain ⟨q, k₁, hq, h⟩ := bind_ok h
  obtain ⟨_, k₂, hk₂, h⟩ := bind_ok h
  have hfiles : files k₂ = files k₁ := keeps_files (keeps_setOverrun _) _ _ _ hk₂
  cases h
  obtain ⟨g, g', h', hg, hm, hk₁⟩ := onFile_ok hq
  obtain rfl : g = f := Option.some.inj (hg.symm.trans hf)
  have hfd : k.host.fds g.file = some .socket := (hx.backed i g hf).socket ht
  have hhost : (k.host.read env g.file count).2.2 = k.host := by
    unfold Host.read
    rw [hfd]
    cases env.limit <;> rfl
  obtain ⟨p, hp, hm⟩ := except_bind_ok hm
  unfold OpenFile.read at hp
  rw [if_pos ((hx.derived i g hf).mpr ht)] at hp
  rw [hfiles, hk₁]
  split_ifs at hp
  · cases hp
    cases hm
    rw [hhost]
    exact quiet_setFile hf rfl
  · cases hp
    cases hm
    exact quiet_setFile hf rfl

theorem write_socket (hx : Files.Ok (files k)) {f : OpenFile}
    (hf : k.fileSystem.openfile i = some f) (ht : f.type = 2) {buf : Buffer} {count r : Int}
    (h : write env i buf count k = .ok (r, k')) : Quiet (files k) (files k') := by
  obtain ⟨q, k₁, hq, h⟩ := bind_ok h
  obtain ⟨_, k₂, hk₂, h⟩ := bind_ok h
  have hfiles : files k₂ = files k₁ := keeps_files (keeps_setOverrun _) _ _ _ hk₂
  cases h
  obtain ⟨g, g', h', hg, hm, hk₁⟩ := onFile_ok hq
  obtain rfl : g = f := Option.some.inj (hg.symm.trans hf)
  have hfd : k.host.fds g.file = some .socket := (hx.backed i g hf).socket ht
  have hhost : (k.host.write env g.file buf.byte count).2.fds = k.host.fds ∧
      (k.host.write env g.file buf.byte count).2.data = k.host.data := by
    unfold Host.write
    rw [hfd]
    cases env.limit <;> exact ⟨rfl, rfl⟩
  unfold OpenFile.write at hm
  rw [if_pos ((hx.derived i g hf).mpr ht)] at hm
  rw [hfiles, hk₁]
  split_ifs at hm
  · cases hm
    refine ⟨sameTable_setFile hf rfl fun n hn => ?_, hhost.1⟩
    rw [hhost.2]
    exact hn
  · cases hm
    exact quiet_setFile hf rfl

theorem readSocket_quiet (hx : Files.Ok (files k)) {f : OpenFile}
    (hf : k.fileSystem.openfile i = some f) (ht : f.type = 2) {virtAddr : Int} {buf : Buffer}
    {count : Int} {u : Unit} (h : readSocket env i virtAddr buf count k = .ok (u, k')) :
    Quiet (files k) (files k') := by
  obtain ⟨r, k₁, hk₁, h⟩ := bind_ok h
  have hq := read_socket hx hf ht hk₁
  rcases ite_ok h with ⟨-, h⟩ | ⟨-, h⟩
  · obtain ⟨_, k₂, hk₂, h⟩ := bind_ok h
    rw [(ret_ok h).1, keeps_files (keeps_system2User _ _ _) _ _ _ hk₂]
    exact hq
  · rw [(ret_ok h).1]
    exact hq

theorem writeSocket_quiet (hx : Files.Ok (files k)) {f : OpenFile}
    (hf : k.fileSystem.openfile i = some f) (ht : f.type = 2) {buf : Buffer} {count : Int}
    {u : Unit} (h : writeSocket env i buf count k = .ok (u, k')) :
    Quiet (files k) (files k') := by
  obtain ⟨r, k₁, hk₁, h⟩ := bind_ok h
  have hq := write_socket hx hf ht hk₁
  rcases ite_ok h with ⟨-, h⟩ | ⟨-, h⟩ <;> rw [(ret_ok h).1] <;> exact hq

/-- What `Read` and `Write` do: nothing that a later call could see, or a transfer at the
host's offset, of which `A` says more. -/
inductive Transfers (A : Fin 20 → ℕ → Prop) (id r2 : Int) (x x' : Files) : Prop
  | none : Quiet x x' →
      (r2 = -1 ∨ id < 2 ∨ ∀ i : Fin 20, (i : Int) = id → x.offset i = Option.none) →
      Transfers A id r2 x x'
  | some (i : Fin 20) (o : ℕ) : (i : Int) = id → x.offset i = Option.some o → 0 < r2 →
      Moved i (o + r2.toNat) x x' → A i o → Transfers A id r2 x x'

theorem Transfers.weaken {A : Fin 20 → ℕ → Prop} {id r2 : Int} {x x' : Files}
    (h : Transfers A id r2 x x') : Transfers (fun _ _ => True) id r2 x x' := by
  cases h with
  | none hq hr => exact .none hq hr
  | some i o hi ho hr hm _ => exact .some i o hi ho hr hm trivial

/-- The bytes from offset `o` of the file in slot `i` have gone to the caller's memory. -/
def Delivered (i : Fin 20) (o : ℕ) (k k' : Kernel κ) : Prop :=
  ∃ (data bytes : List UInt8) (buf : Buffer) (k₁ k₂ : Kernel κ) (v : Int),
    (files k).contents i = some data ∧ bytes <+: data.drop o ∧ regs k' 2 = bytes.length ∧
    system2User (regs k 4) bytes.length (buf.store bytes) k₁ = .ok (v, k₂) ∧
    k'.machine.mainMemory = k₂.machine.mainMemory

/-- What `Seek` does; if the position is refused, the offset is at the end all the same. -/
inductive Seeks (pos id r2 : Int) (x x' : Files) : Prop
  | refused : Quiet x x' → r2 = -1 →
      (∀ i : Fin 20, (2 : ℕ) ≤ i → (i : Int) = id → x.fileLength i = none) → Seeks pos id r2 x x'
  | beyond (i : Fin 20) (l : ℕ) : (i : Int) = id → x.fileLength i = some l → l < pos → r2 = -1 →
      Moved i l x x' → Seeks pos id r2 x x'
  | done (i : Fin 20) (l : ℕ) : (i : Int) = id → x.fileLength i = some l →
      r2 = (if pos = -1 then (l : Int) else pos) → 0 ≤ r2 → r2 ≤ l → Moved i r2.toNat x x' →
      Seeks pos id r2 x x'

theorem failed_transfer {A : Fin 20 → ℕ → Prop} {id : Int} {x : Files} {u : Unit}
    (hq : Quiet x (files k)) (h : ret (-1) k = .ok (u, k')) :
    Transfers A id (regs k' 2) x (files k') := by
  rw [(ret_ok h).1]
  exact .none hq (.inl (ret_ok h).2)

theorem refused_transfer {A : Fin 20 → ℕ → Prop} {id : Int} {u : Unit}
    (h : ret (-1) k = .ok (u, k')) : Transfers A id (regs k' 2) (files k) (files k') :=
  failed_transfer (.refl _) h

theorem socket_transfer {A : Fin 20 → ℕ → Prop} {id r2 : Int} {x y x' : Files} {j : Fin 20}
    {f : OpenFile} (hx : x.Ok) (hj : (j : Int) = id) (hf : x.1.openfile j = some f)
    (ht : f.type = 2) (hq : Quiet x y)
    (hsocket : ∀ g, y.1.openfile j = some g → g.type = 2 → Quiet y x') :
    Transfers A id r2 x x' := by
  obtain ⟨g, hg, hcore⟩ := hq.toSameTable.after hf
  have hgt : g.type = 2 := (congrArg (·.2.1) hcore : g.type = f.type).trans ht
  refine .none (hq.trans (hsocket g hg hgt)) (.inr (.inr fun l hl => ?_))
  obtain rfl : l = j := Fin.ext (by omega)
  exact hx.offset_socket hf ht

theorem scRead_spec (hx : Files.Ok (files k)) {u : Unit} (h : scRead env k = .ok (u, k')) :
    Transfers (Delivered · · k k') (regs k 6) (regs k' 2) (files k) (files k') := by
  simp only [scRead, readRegister_bind] at h
  rcases ite_ok h with ⟨-, h⟩ | ⟨-, h⟩
  · exact refused_transfer h
  obtain ⟨j, hj, ⟨-, h⟩ | ⟨f, hf, h⟩⟩ := openfileAt_bind_ok h
  · exact refused_transfer h
  obtain ⟨oldPos, k₁, hk₁, h⟩ := bind_ok h
  obtain ⟨hq₁, hdata₁, hpos⟩ := getCurrentPos_spec hx hk₁
  obtain ⟨buf, k₂, hk₂, h⟩ := bind_ok h
  have hfiles₂ : files k₂ = files k₁ := keeps_files (keeps_user2System _ _ _) _ _ _ hk₂
  rw [← hfiles₂] at hq₁ hpos
  rcases ite_ok h with ⟨hid, h⟩ | ⟨-, h⟩
  · -- the console
    obtain ⟨line, k₃, hk₃, h⟩ := bind_ok h
    obtain ⟨_, k₄, hk₄, h⟩ := bind_ok h
    obtain ⟨_, k₅, hk₅, h⟩ := bind_ok h
    refine .none ?_ (.inr (.inl (by omega)))
    rw [(ret_ok h).1, keeps_files (keeps_system2User _ _ _) _ _ _ hk₅,
      keeps_files (keeps_setOverrun _) _ _ _ hk₄, keeps_files (keeps_readLine _) _ _ _ hk₃]
    exact hq₁
  rcases ite_ok h with ⟨ht, h⟩ | ⟨-, h⟩
  · -- a file
    obtain ⟨o, ho⟩ := hx.offset_file hf (by omega)
    obtain ⟨rfl, hsync⟩ := hpos o ho
    obtain ⟨r, k₃, hk₃, h⟩ := bind_ok h
    have hx₂ := hx.quiet hq₁
    rcases read_spec hx₂ hsync hk₃ with ⟨hle, hq₃⟩ | ⟨hlt, hmoved, data, bytes, hc, hpre, hread⟩
    · rcases ite_ok h with ⟨hgt, h⟩ | ⟨-, h⟩
      · omega
      · exact failed_transfer (hq₁.trans hq₃) h
    · rcases ite_ok h with ⟨-, h⟩ | ⟨hle, h⟩
      · obtain ⟨newPos, k₄, hk₄, h⟩ := bind_ok h
        -- the call returns the difference of the positions, which is what the method has read
        obtain ⟨hq₄, -, hpos₄⟩ := getCurrentPos_spec (hx₂.moved hmoved) hk₄
        obtain ⟨rfl, -⟩ := hpos₄ _ hmoved.offset_self
        obtain ⟨_, k₅, hk₅, h⟩ := bind_ok h
        obtain ⟨hfiles, hr2⟩ := ret_ok h
        have hr : regs k' 2 = r.1 := by
          rw [show regs k' 2 = _ from hr2]
          omega
        refine .some j o hj ho (hr ▸ hlt) ?_ ?_
        · rw [hr, hfiles, keeps_files (keeps_system2User _ _ _) _ _ _ hk₅]
          exact (hq₁.moved hmoved).quiet hq₄
        · rw [hfiles₂, hdata₁] at hc
          have hlen : (o : Int) + (r.1.toNat : ℕ) - o = bytes.length := by
            rw [hread]
            omega
          rw [Nat.cast_add, hlen] at hk₅ h
          rw [hread] at hk₅
          refine ⟨data, bytes, buf, k₄, k₅, _, hc, hpre, (ret_ok h).2, hk₅, ?_⟩
          cases h
          rfl
      · omega
  rcases ite_ok h with ⟨ht, h⟩ | ⟨-, h⟩
  · -- a socket
    refine socket_transfer hx hj hf ht.1 hq₁ fun g hg hgt => ?_
    exact readSocket_quiet (hx.quiet hq₁) hg hgt h
  · exact failed_transfer hq₁ h

theorem scWrite_spec (hx : Files.Ok (files k)) {u : Unit} (h : scWrite env k = .ok (u, k')) :
    Transfers (Wrote · · (regs k' 2).toNat (files k) (files k')) (regs k 6) (regs k' 2)
      (files k) (files k') := by
  simp only [scWrite, readRegister_bind] at h
  rcases ite_ok h with ⟨-, h⟩ | ⟨-, h⟩
  · exact refused_transfer h
  obtain ⟨j, hj, ⟨-, h⟩ | ⟨f, hf, h⟩⟩ := openfileAt_bind_ok h
  · exact refused_transfer h
  rcases ite_ok h with ⟨-, h⟩ | ⟨-, h⟩
  · exact refused_transfer h
  obtain ⟨oldPos, k₁, hk₁, h⟩ := bind_ok h
  obtain ⟨hq₁, hdata₁, hpos⟩ := getCurrentPos_spec hx hk₁
  obtain ⟨buf, k₂, hk₂, h⟩ := bind_ok h
  have hfiles₂ : files k₂ = files k₁ := keeps_files (keeps_user2System _ _ _) _ _ _ hk₂
  rw [← hfiles₂] at hq₁ hpos
  rcases ite_ok h with ⟨hid, h⟩ | ⟨-, h⟩
  · -- the console
    obtain ⟨_, k₃, hk₃, h⟩ := bind_ok h
    obtain ⟨n, k₄, hk₄, h⟩ := bind_ok h
    refine .none ?_ (.inr (.inl (by omega)))
    rw [(ret_ok h).1, keeps_files (keeps_putString _ _ _ _) _ _ _ hk₄,
      keeps_files (keeps_setOverrun _) _ _ _ hk₃]
    exact hq₁
  rcases ite_ok h with ⟨ht, h⟩ | ⟨-, h⟩
  · -- a file
    obtain ⟨o, ho⟩ := hx.offset_file hf (by omega)
    obtain ⟨rfl, hsync⟩ := hpos o ho
    obtain ⟨r, k₃, hk₃, h⟩ := bind_ok h
    have hx₂ := hx.quiet hq₁
    rcases write_spec hx₂ hsync hk₃ with ⟨hle, hq₃⟩ | ⟨hlt, hmoved, hwrote⟩
    · rcases ite_ok h with ⟨hgt, h⟩ | ⟨-, h⟩
      · omega
      · exact failed_transfer (hq₁.trans hq₃) h
    · rcases ite_ok h with ⟨-, h⟩ | ⟨hle, h⟩
      · obtain ⟨newPos, k₄, hk₄, h⟩ := bind_ok h
        -- the call returns the difference of the positions, which is what the method has written
        obtain ⟨hq₄, hdata₄, hpos₄⟩ := getCurrentPos_spec (hx₂.moved hmoved) hk₄
        obtain ⟨rfl, -⟩ := hpos₄ _ hmoved.offset_self
        obtain ⟨hfiles, hr2⟩ := ret_ok h
        have hr : regs k' 2 = r := by
          rw [show regs k' 2 = _ from hr2]
          omega
        refine .some j o hj ho (hr ▸ hlt) ?_ ?_
        · rw [hr, hfiles]
          exact (hq₁.moved hmoved).quiet hq₄
        · obtain ⟨data, bytes, hc, hlen, hc'⟩ := hwrote
          rw [hfiles₂, hdata₁] at hc
          rw [hfiles, hr]
          exact ⟨data, bytes, hc, hlen, hdata₄ ▸ hc'⟩
      · omega
  rcases ite_ok h with ⟨ht, h⟩ | ⟨-, h⟩
  · -- a socket
    refine socket_transfer hx hj hf ht.1 hq₁ fun g hg hgt => ?_
    exact writeSocket_quiet (hx.quiet hq₁) hg hgt h
  · exact failed_transfer hq₁ h

theorem refused_seek {pos id : Int} {u : Unit} (h : ret (-1) k = .ok (u, k'))
    (hid : ∀ i : Fin 20, (2 : ℕ) ≤ i → (i : Int) = id → (files k).fileLength i = none) :
    Seeks pos id (regs k' 2) (files k) (files k') :=
  .refused ((ret_ok h).1 ▸ .refl _) (ret_ok h).2 hid

theorem scSeek_spec (hx : Files.Ok (files k)) {u : Unit} (h : scSeek k = .ok (u, k')) :
    Seeks (regs k 4) (regs k 5) (regs k' 2) (files k) (files k') := by
  simp only [scSeek, readRegister_bind] at h
  rcases ite_ok h with ⟨hid, h⟩ | ⟨-, h⟩
  · exact refused_seek h fun i hi hid' => by omega
  obtain ⟨j, hj, ⟨hnone, h⟩ | ⟨f, hf, h⟩⟩ := openfileAt_bind_ok h
  · refine refused_seek h fun i _ hid' => ?_
    obtain rfl : i = j := Fin.ext (by omega)
    exact Files.fileLength_free hnone
  rcases ite_ok h with ⟨ht, h⟩ | ⟨ht, h⟩
  · refine refused_seek h fun i _ hid' => ?_
    obtain rfl : i = j := Fin.ext (by omega)
    exact hx.fileLength_socket hf ht
  obtain ⟨len, k₁, hk₁, h⟩ := bind_ok h
  obtain ⟨l, hl, rfl, hmax, hend⟩ := length_spec hx hf ht hk₁
  rcases ite_ok h with ⟨hpos, h⟩ | ⟨hpos, h⟩
  · rw [(ret_ok h).1]
    exact .beyond j l hj hl hpos (ret_ok h).2 hend
  · obtain ⟨_, k₂, hk₂, h⟩ := bind_ok h
    obtain ⟨g, hg, hcore⟩ := hend.toSameTable.after hf
    have hgt : g.type ≠ 2 := by
      rw [show g.type = f.type from congrArg (·.2.1) hcore]
      exact ht
    have hle : (if regs k 4 = -1 then (l : Int) else regs k 4) ≤ l := by
      split_ifs <;> omega
    obtain ⟨hnonneg, hmoved⟩ := seek_spec (hx.moved hend) hg hgt (hle.trans hmax) hk₂
    obtain ⟨hfiles, hr2⟩ := ret_ok h
    rw [hfiles, show regs k' 2 = _ from hr2]
    exact .done j l hj hl rfl hnonneg hle (hend.moved hmoved)

theorem isFull_free {fs : FileSystem} (h : fs.isFull = some i) : fs.openfile i = none := by
  simpa using List.find?_some h

/-- A failing `Open` or `Socket` stores its null pointer into a slot that was free. -/
theorem setFile_none {fs : FileSystem} (hi : fs.openfile i = none) : fs.setFile i none = fs := by
  rw [FileSystem.setFile, ← hi, Function.update_eq_self]

def Gives (h : Host) (type : Int) (r : Option OpenFile × Host) : Prop :=
  r = (none, h) ∨ ∃ f d, r = (some f, h.setFd f.file (some d)) ∧ f.type = type ∧
    h.fds f.file = none ∧ (f.socketH = true ↔ f.type = 2) ∧
    (h.setFd f.file (some d)).Backs f ∧ (type ≠ 2 → ∃ n, d = .file n 0)

theorem gives_openMode {h : Host} {name : Name} {type : Int} (ht : type = 1 ∨ type = 0) :
    Gives h type (FileSystem.openMode h env name type) := by
  unfold FileSystem.openMode
  rcases h.openRW_cases env name with hr | ⟨fd, n, hfd, hlen, hr⟩ <;> rw [hr]
  · exact .inl rfl
  · refine .inr ⟨.ofMode fd type, .file n 0, rfl, rfl, hfd, ?_, ?_, fun _ => ⟨n, rfl⟩⟩
    · rcases ht with rfl | rfl <;> simp [OpenFile.ofMode]
    · unfold Host.Backs
      rw [Host.fds_setFd]
      refine ⟨?_, by decide, hlen⟩
      rcases ht with rfl | rfl <;> simp [OpenFile.ofMode]

theorem gives_socketTCP {h : Host} : Gives h 2 (FileSystem.socketTCP h env) := by
  unfold FileSystem.socketTCP Host.socket
  split
  · exact .inl rfl
  · next fd hfd =>
    refine .inr ⟨.ofSocket fd, .socket, rfl, rfl, Host.newFd_free hfd, ?_, ?_,
      fun h2 => absurd rfl h2⟩
    · simp [OpenFile.ofSocket, OpenFile.ofMode]
    · unfold Host.Backs
      rw [Host.fds_setFd]
      rfl

/-- What `Open` and `Socket` do: -1 with nothing changed, or a free slot and its number. -/
def Takes (type r2 : Int) (x x' : Files) : Prop :=
  (r2 = -1 ∧ x' = x) ∨ ∃ (j : Fin 20) (f : OpenFile) (name : Name), r2 = (j : ℕ) ∧
    f.type = type ∧ Files.Opened j f name x x' ∧ (type ≠ 2 → x'.offset j = some 0)

def TakesAs (type : Int) (name : Name) (r2 : Int) (x x' : Files) : Prop :=
  (r2 = -1 ∧ x' = x) ∨ ∃ (j : Fin 20) (f : OpenFile), r2 = (j : ℕ) ∧
    f.type = type ∧ Files.Opened j f name x x' ∧ (type ≠ 2 → x'.offset j = some 0)

theorem TakesAs.takes {type r2 : Int} {name : Name} {x x' : Files}
    (h : TakesAs type name r2 x x') : Takes type r2 x x' :=
  h.imp_right fun ⟨j, f, hj⟩ => ⟨j, f, name, hj⟩

theorem takeSlot_spec {r : Option OpenFile × Host} {j : Fin 20} {name : Name} {type : Int}
    {u : Unit} (hfree : k.fileSystem.openfile j = none) (hname : name ≠ [])
    (ht : type = 0 ∨ type = 1 ∨ type = 2) (hr : Gives k.host type r)
    (h : (do
      setHost r.2
      setFile j r.1
      if r.1.isSome then
        setName j name
        ret (j : ℕ)
      else ret (-1)) k = .ok (u, k')) :
    TakesAs type name (regs k' 2) (files k) (files k') := by
  obtain ⟨_, _, hk₁, h⟩ := bind_ok h
  cases hk₁
  obtain ⟨_, _, hk₂, h⟩ := bind_ok h
  cases hk₂
  rcases hr with rfl | ⟨f, d, rfl, htype, hfd, hderived, hbacked, hoffset⟩
  · obtain ⟨hfiles, hr2⟩ := ret_ok h
    exact .inl ⟨hr2, hfiles.trans (Prod.ext (setFile_none hfree) rfl)⟩
  · obtain ⟨_, _, hk₃, h⟩ := bind_ok h
    cases hk₃
    obtain ⟨hfiles, hr2⟩ := ret_ok h
    have hopened : Files.Opened j f name (files k) (files k') := by
      rw [hfiles]
      exact ⟨hfree, rfl, hname, htype ▸ ht, hderived, hfd, rfl, ⟨some d, rfl⟩, hbacked⟩
    refine .inr ⟨j, f, hr2, htype, hopened, fun h2 => ?_⟩
    obtain ⟨n, rfl⟩ := hoffset h2
    apply Files.offset_eq hopened.self.1
    rw [hfiles]
    exact Function.update_self ..

theorem refused_open {type : Int} {name : Name} {u : Unit} (h : ret (-1) k = .ok (u, k')) :
    TakesAs type name (regs k' 2) (files k) (files k') :=
  .inl ⟨(ret_ok h).2, (ret_ok h).1⟩

/-- The slot that `Open` takes gets the kernel's copy of the name. -/
theorem scOpen_named {u : Unit} (h : scOpen env k = .ok (u, k')) :
    ∃ b k₁, user2System env (regs k 4) (maxFileLength + 1) k = .ok (b, k₁) ∧
      TakesAs (regs k 5) b.str (regs k' 2) (files k) (files k') ∧
      (regs k' 2 ≠ -1 → regs k 5 = 0 ∨ regs k 5 = 1) := by
  simp only [scOpen, readRegister_bind] at h
  obtain ⟨filename, k₁, hk₁, h⟩ := bind_ok h
  refine ⟨filename, k₁, hk₁, ?_⟩
  rw [← show files k₁ = files k from keeps_files (keeps_user2System _ _ _) _ _ _ hk₁]
  obtain ⟨_, _, hget, h⟩ := bind_ok h
  cases hget
  cases hslot : k₁.fileSystem.isFull with
  | none =>
    simp only [hslot] at h
    exact ⟨refused_open h, fun hne => absurd (ret_ok h).2 hne⟩
  | some j =>
    simp only [hslot] at h
    rcases ite_ok h with ⟨-, h⟩ | ⟨hname, h⟩
    · exact ⟨refused_open h, fun hne => absurd (ret_ok h).2 hne⟩
    rcases ite_ok h with ⟨htype, h⟩ | ⟨-, h⟩
    · obtain ⟨_, _, hget, h⟩ := bind_ok h
      cases hget
      refine ⟨takeSlot_spec (isFull_free hslot) hname ?_ (gives_openMode htype) h,
        fun _ => htype.symm⟩
      exact htype.elim (.inr ∘ .inl) .inl
    · exact ⟨refused_open h, fun hne => absurd (ret_ok h).2 hne⟩

theorem scOpen_spec {u : Unit} (h : scOpen env k = .ok (u, k')) :
    Takes (regs k 5) (regs k' 2) (files k) (files k') ∧
      (regs k' 2 ≠ -1 → regs k 5 = 0 ∨ regs k 5 = 1) := by
  obtain ⟨b, k₁, -, htakes, hmode⟩ := scOpen_named h
  exact ⟨htakes.takes, hmode⟩

theorem scSocket_spec {u : Unit} (h : scSocket env k = .ok (u, k')) :
    TakesAs 2 socketName (regs k' 2) (files k) (files k') := by
  obtain ⟨_, _, hget, h⟩ := bind_ok h
  cases hget
  cases hslot : k.fileSystem.isFull with
  | none =>
    simp only [hslot] at h
    exact refused_open h
  | some j =>
    simp only [hslot] at h
    obtain ⟨_, _, hget, h⟩ := bind_ok h
    cases hget
    exact takeSlot_spec (isFull_free hslot) (by decide +kernel) (.inr (.inr rfl)) gives_socketTCP h

/-- What `Close` does. -/
def Closes (id r2 : Int) (x x' : Files) : Prop :=
  (r2 = -1 ∧ x' = x) ∨ ∃ j : Fin 20, (j : Int) = id ∧ r2 = 0 ∧ Files.Closed j x x'

theorem scClose_spec {u : Unit} (h : scClose k = .ok (u, k')) :
    Closes (regs k 4) (regs k' 2) (files k) (files k') := by
  simp only [scClose, readRegister_bind] at h
  rcases ite_ok h with ⟨-, h⟩ | ⟨hid, h⟩
  · exact .inl ⟨(ret_ok h).2, (ret_ok h).1⟩
  obtain ⟨j, hj, ⟨-, h⟩ | ⟨f, hf, h⟩⟩ := openfileAt_bind_ok h
  · exact .inl ⟨(ret_ok h).2, (ret_ok h).1⟩
  obtain ⟨_, k₁, hk₁, h⟩ := bind_ok h
  cases hk₁
  obtain ⟨_, _, hk₂, h⟩ := bind_ok h
  cases hk₂
  obtain ⟨_, _, hget, h⟩ := bind_ok h
  cases hget
  obtain ⟨h', _, hk₃, h⟩ := bind_ok h
  obtain ⟨hdelete, rfl⟩ := lift_ok hk₃
  obtain rfl := OpenFile.delete_ok hdelete
  cases h
  refine .inr ⟨j, hj, rfl, by omega, rfl, rfl, f, hf, rfl⟩

theorem quiet_setHost {fs : FileSystem} {h h' : Host} (hfds : h'.fds = h.fds)
    (hwithin : ∀ n, ((h.data n).length : Int) ≤ intMax → ((h'.data n).length : Int) ≤ intMax) :
    Quiet (fs, h) (fs, h') := ⟨⟨rfl, fun _ => rfl, hwithin⟩, hfds⟩

/-- `Create` closes the file that it opens. -/
theorem create_quiet {fs : FileSystem} {h h' : Host} {name : Name}
    (hc : FileSystem.create h env name = .ok h') : Quiet (fs, h) (fs, h') := by
  unfold FileSystem.create Host.openTrunc at hc
  cases hfd : h.newFd env with
  | none =>
    rw [hfd] at hc
    cases hc
  | some fd =>
    rw [hfd] at hc
    simp only [Host.close, Function.update_self, Option.isSome_some, if_true] at hc
    cases hc
    refine quiet_setHost ?_ fun n hn => ?_
    · change Function.update (Function.update h.fds fd _) fd none = h.fds
      rw [Function.update_idem, ← Host.newFd_free hfd, Function.update_eq_self]
    · change ((Function.update h.data _ [] n).length : Int) ≤ intMax
      rw [Function.update_apply]
      split_ifs
      · decide
      · exact hn

/-- `Exec` deletes the file that it opens. -/
theorem openAny_cases (h : Host) (env : Env) (name : Name) (junk : Int) :
    FileSystem.openAny h env name junk = (none, h) ∨
      ∃ f h₁, FileSystem.openAny h env name junk = (some f, h₁) ∧
        ∀ h', f.delete h₁ = .ok h' → h' = h := by
  unfold FileSystem.openAny
  rcases h.openRW_cases env name with hr | ⟨fd, n, hfd, -, hr⟩ <;> rw [hr]
  · exact .inl rfl
  · refine .inr ⟨_, _, rfl, fun h' hd => ?_⟩
    rw [OpenFile.delete_ok hd]
    change { h with fds := Function.update (Function.update h.fds fd _) fd none } = h
    rw [Function.update_idem, ← hfd, Function.update_eq_self]

theorem remove_quiet {fs : FileSystem} {h : Host} {name : Name} :
    Quiet (fs, h) (fs, (FileSystem.remove h env name).2) := by
  unfold FileSystem.remove Host.unlink
  split_ifs <;> exact quiet_setHost rfl fun _ hn => hn

/-- The program leaves table and descriptors alone. -/
def LeavesFiles (f : Sys κ α) : Prop := Does f fun k k' => Quiet (files k) (files k')

theorem leavesFiles_of_keeps {f : Sys κ α} (h : Keeps files f) : LeavesFiles f := by
  intro k a k' hk
  rw [h k a k' hk]
  exact .refl _

theorem leavesFiles_ret (v : Int) : LeavesFiles (ret v : Sys κ Unit) := by
  intro k a k' h
  rw [(ret_ok h).1]
  exact .refl _

theorem leavesFiles_increasePC : LeavesFiles (increasePC : Sys κ Unit) := by
  intro k a k' h
  cases h
  exact .refl _

theorem leavesFiles_bind {f : Sys κ α} {β : Type} {g : α → Sys κ β} (hf : LeavesFiles f)
    (hg : ∀ a, LeavesFiles (g a)) : LeavesFiles (f >>= g) := by
  intro k b k'' h
  obtain ⟨a, k', hk', h⟩ := bind_ok h
  exact (hf k a k' hk').trans (hg a k' b k'' h)

theorem leavesFiles_after {f : Sys κ α} {β : Type} {g : α → Sys κ β} (hf : Keeps rest f)
    (hg : ∀ a, LeavesFiles (g a)) : LeavesFiles (f >>= g) :=
  leavesFiles_bind (leavesFiles_of_keeps (keeps_files hf)) hg

theorem leavesFiles_scCreate : LeavesFiles (scCreate env : Sys κ Unit) := by
  refine leavesFiles_after (keeps_readRegister 4) fun virtAddr => ?_
  refine leavesFiles_after (keeps_user2System _ _ _) fun filename => ?_
  refine does_ite (fun _ => leavesFiles_ret _) fun _ => ?_
  intro k a k' h
  obtain ⟨_, _, hget, h⟩ := bind_ok h
  cases hget
  obtain ⟨h', _, hk₁, h⟩ := bind_ok h
  obtain ⟨hc, rfl⟩ := lift_ok hk₁
  cases h
  exact create_quiet hc

theorem leavesFiles_scRemove : LeavesFiles (scRemove env : Sys κ Unit) := by
  refine leavesFiles_after (keeps_readRegister 4) fun virtAddr => ?_
  refine leavesFiles_after (keeps_user2System _ _ _) fun filename => ?_
  intro k a k' h
  obtain ⟨_, _, hget, h⟩ := bind_ok h
  cases hget
  rcases ite_ok h with ⟨-, h⟩ | ⟨-, h⟩
  · exact leavesFiles_ret _ _ _ _ h
  rcases ite_ok h with ⟨-, h⟩ | ⟨-, h⟩
  · exact leavesFiles_ret _ _ _ _ h
  obtain ⟨_, _, hk₁, h⟩ := bind_ok h
  cases hk₁
  rcases ite_ok h with ⟨-, h⟩ | ⟨-, h⟩ <;> rw [(ret_ok h).1] <;> exact remove_quiet

theorem leavesFiles_scExec (svc : Services κ) : LeavesFiles (scExec svc env) := by
  refine leavesFiles_after (keeps_readRegister 4) fun virtAddr => ?_
  refine leavesFiles_after (keeps_user2System _ _ _) fun name => ?_
  intro k a k' h
  obtain ⟨_, _, hget, h⟩ := bind_ok h
  cases hget
  rcases openAny_cases k.host env name.str (env.junk 0).toNat with ho | ⟨f, h₁, ho, hdel⟩
  · simp only [ho] at h
    cases h
    exact .refl _
  · simp only [ho] at h
    obtain ⟨h', _, hk₁, h⟩ := bind_ok h
    obtain ⟨hd, rfl⟩ := lift_ok hk₁
    obtain rfl := hdel h' hd
    obtain ⟨_, _, hk₂, h⟩ := bind_ok h
    cases hk₂
    exact leavesFiles_after (keeps_service _) (fun r => leavesFiles_ret r) _ _ _ h

theorem leavesFiles_scAdd : LeavesFiles (scAdd : Sys κ Unit) := by
  refine leavesFiles_after (keeps_readRegister 4) fun _ => ?_
  exact leavesFiles_after (keeps_readRegister 5) fun _ => leavesFiles_ret _

theorem leavesFiles_scPrintString : LeavesFiles (scPrintString env : Sys κ Unit) := by
  refine leavesFiles_after (keeps_readRegister 4) fun _ => ?_
  refine leavesFiles_after (keeps_user2System _ _ _) fun _ => ?_
  exact leavesFiles_after (keeps_printBuffer _) fun _ => leavesFiles_increasePC

theorem leavesFiles_scReadString : LeavesFiles (scReadString env : Sys κ Unit) := by
  refine leavesFiles_after (keeps_readRegister 4) fun _ => ?_
  refine leavesFiles_after (keeps_readRegister 5) fun _ => ?_
  refine leavesFiles_after (keeps_newBuffer _ _) fun _ => ?_
  refine leavesFiles_after keeps_readUntilNewline fun _ => ?_
  refine leavesFiles_after (keeps_setOverrun _) fun _ => ?_
  exact leavesFiles_after (keeps_system2User _ _ _) fun _ => leavesFiles_increasePC

theorem leavesFiles_scPrintInt : LeavesFiles (scPrintInt : Sys κ Unit) := by
  refine leavesFiles_after (keeps_readRegister 4) fun _ => ?_
  exact leavesFiles_after (keeps_printBuffer _) fun _ => leavesFiles_increasePC

theorem leavesFiles_scJoin (svc : Services κ) : LeavesFiles (scJoin svc) := by
  refine leavesFiles_after (keeps_readRegister 4) fun _ => ?_
  exact leavesFiles_after (keeps_service _) fun _ => leavesFiles_ret _

theorem leavesFiles_scExit (svc : Services κ) : LeavesFiles (scExit svc) := by
  refine leavesFiles_after (keeps_readRegister 4) fun _ => ?_
  exact leavesFiles_after (keeps_service _) fun _ => leavesFiles_ret _

theorem leavesFiles_semCall (f : Name → κ → Except Stop (Int × κ)) :
    LeavesFiles (semCall env f) := by
  refine leavesFiles_after (keeps_readRegister 4) fun _ => ?_
  refine leavesFiles_after (keeps_user2System _ _ _) fun _ => ?_
  exact leavesFiles_after (keeps_service _) fun _ => leavesFiles_ret _

theorem leavesFiles_scCreateSemaphore (svc : Services κ) :
    LeavesFiles (scCreateSemaphore svc env) :=
  leavesFiles_after (keeps_readRegister 5) fun _ => leavesFiles_semCall _

theorem leavesFiles_scExecV (svc : Services κ) : LeavesFiles (scExecV svc env) := by
  refine leavesFiles_after (keeps_readRegister 4) fun _ => ?_
  refine leavesFiles_after (keeps_readRegister 5) fun _ => ?_
  refine leavesFiles_after (keeps_newPointers _) fun _ => ?_
  refine leavesFiles_after (keeps_readArgs _ _ _) fun _ => ?_
  refine leavesFiles_after (keeps_setOverrun _) fun _ => ?_
  exact leavesFiles_after (keeps_service _) fun _ => leavesFiles_ret _

theorem scConnect_quiet {u : Unit} (h : scConnect env k = .ok (u, k')) :
    Quiet (files k) (files k') := by
  simp only [scConnect, readRegister_bind] at h
  rcases ite_ok h with ⟨-, h⟩ | ⟨-, h⟩
  · exact leavesFiles_ret _ _ _ _ h
  obtain ⟨j, hj, ⟨-, h⟩ | ⟨f, hf, h⟩⟩ := openfileAt_bind_ok h
  · exact leavesFiles_ret _ _ _ _ h
  obtain ⟨_, k₁, hk₁, h⟩ := bind_ok h
  obtain ⟨r, k₂, hk₂, h⟩ := bind_ok h
  rw [← show files k₁ = files k from keeps_files (keeps_user2System _ _ _) _ _ _ hk₁]
  refine (connect_quiet hk₂).trans ?_
  rcases ite_ok h with ⟨-, h⟩ | ⟨-, h⟩ <;> exact leavesFiles_ret _ _ _ _ h

theorem scSend_quiet (hx : Files.Ok (files k)) {u : Unit} (h : scSend env k = .ok (u, k')) :
    Quiet (files k) (files k') := by
  simp only [scSend, readRegister_bind] at h
  rcases ite_ok h with ⟨-, h⟩ | ⟨-, h⟩
  · exact leavesFiles_ret _ _ _ _ h
  obtain ⟨j, hj, ⟨-, h⟩ | ⟨f, hf, h⟩⟩ := openfileAt_bind_ok h
  · exact leavesFiles_ret _ _ _ _ h
  obtain ⟨buf, k₁, hk₁, h⟩ := bind_ok h
  have hfiles : files k₁ = files k := keeps_files (keeps_user2System _ _ _) _ _ _ hk₁
  have hf₁ : k₁.fileSystem.openfile j = some f := by
    rw [show k₁.fileSystem = k.fileSystem from congrArg Prod.fst hfiles]
    exact hf
  rw [← hfiles] at hx ⊢
  rcases ite_ok h with ⟨ht, h⟩ | ⟨-, h⟩
  · exact writeSocket_quiet hx hf₁ ht.1 h
  · exact leavesFiles_ret _ _ _ _ h

theorem scReceive_quiet (hx : Files.Ok (files k)) {u : Unit}
    (h : scReceive env k = .ok (u, k')) : Quiet (files k) (files k') := by
  simp only [scReceive, readRegister_bind] at h
  rcases ite_ok h with ⟨-, h⟩ | ⟨-, h⟩
  · exact leavesFiles_ret _ _ _ _ h
  obtain ⟨j, hj, ⟨-, h⟩ | ⟨f, hf, h⟩⟩ := openfileAt_bind_ok h
  · exact leavesFiles_ret _ _ _ _ h
  obtain ⟨buf, k₁, hk₁, h⟩ := bind_ok h
  have hfiles : files k₁ = files k := keeps_files (keeps_user2System _ _ _) _ _ _ hk₁
  have hf₁ : k₁.fileSystem.openfile j = some f := by
    rw [show k₁.fileSystem = k.fileSystem from congrArg Prod.fst hfiles]
    exact hf
  rw [← hfiles] at hx ⊢
  rcases ite_ok h with ⟨ht, h⟩ | ⟨-, h⟩
  · exact readSocket_quiet hx hf₁ ht.1 h
  · exact leavesFiles_ret _ _ _ _ h

end Sys
end Nachos
