import Nachos.FileRuns

namespace Nachos
open TwosComplement Programs GuardedRun

/-- A fault that the arguments of a file call have led to.  A write that would end past the
largest offset fails on every host; a host that takes less of another is no such fault. -/
def Fault.OfArguments : Fault → Prop
  | .index _ | .nullPointer | .badAlloc _ | .lseek _ _ | .close => True
  | .writeFile nBytes offset => nBytes < 0 ∨ intMax < offset + nBytes
  | _ => False

def Stop.Tame (e : Stop) : Prop := ∀ f, e = .abort f → ¬f.OfArguments

namespace Sys
variable {κ α : Type} {k k' : Kernel κ} {i : Fin 20} {f : OpenFile} {env : Env}

abbrev Tame (r : Except Stop (α × Kernel κ)) : Prop := StopsOnly Stop.Tame r

theorem tame_halt (e : ExceptionType) : (Stop.halt e).Tame := nofun

theorem tame_away : Stop.away.Tame := nofun

theorem tame_translate : (Stop.abort .translate).Tame := by
  intro f hf
  cases hf
  exact id

theorem tame_readMem (addr size : Int) (k : Kernel κ) : Tame (readMem addr size k) := by
  intro e he
  rw [readMem_eq] at he
  split at he <;> cases he
  · exact tame_halt _
  · exact tame_translate

theorem tame_writeMem (addr size value : Int) (k : Kernel κ) :
    Tame (writeMem addr size value k) := by
  intro e he
  rw [writeMem_eq] at he
  split at he <;> cases he
  · exact tame_halt _
  · exact tame_translate

theorem tame_copyIn (addr oneChar : Int) (n : ℕ) (k : Kernel κ) :
    Tame (copyIn addr oneChar n k) := by
  induction n generalizing addr oneChar k with
  | zero => exact stopsOnly_ok _
  | succ n ih =>
    refine stopsOnly_bind (tame_readMem _ _ _) fun v k₁ _ => ?_
    refine stopsOnly_ite (fun _ => stopsOnly_ok _) fun _ => ?_
    exact stopsOnly_bind (ih _ _ _) fun _ _ _ => stopsOnly_ok _

theorem tame_user2System {virtAddr count : Int} (h : 0 ≤ wrap (count + 1)) (k : Kernel κ) :
    Tame (user2System env virtAddr count k) := by
  refine stopsOnly_bind ?_ fun b k₁ _ => ?_
  · rw [newBuffer, if_neg (by omega)]
    exact stopsOnly_ok _
  · exact stopsOnly_bind (tame_copyIn _ _ _ _) fun _ _ _ => stopsOnly_ok _

theorem user2System_badAlloc {virtAddr count : Int} (h : wrap (count + 1) < 0) (k : Kernel κ) :
    user2System env virtAddr count k = .error (.abort (.badAlloc (wrap (count + 1)))) := by
  apply bind_of_error
  rw [newBuffer, if_pos h]
  rfl

theorem user2System_minus (virtAddr : Int) (k : Kernel κ) :
    user2System env virtAddr (-1) k = .ok (⟨0, env.junk⟩, k) := rfl

theorem tame_copyOut (addr : Int) (buffer : ℕ → UInt8) (i n : ℕ) (k : Kernel κ) :
    Tame (copyOut addr buffer i n k) := by
  induction n generalizing addr i k with
  | zero => exact stopsOnly_ok _
  | succ n ih =>
    refine stopsOnly_bind (tame_writeMem _ _ _ _) fun _ k₁ _ => ?_
    exact stopsOnly_ite (fun _ => stopsOnly_ok _) fun _ => ih _ _ _

theorem tame_system2User (virtAddr len : Int) (buffer : Buffer) (k : Kernel κ) :
    Tame (system2User virtAddr len buffer k) := by
  refine stopsOnly_ite (fun _ => stopsOnly_ok _) fun _ => ?_
  exact stopsOnly_ite (fun _ => stopsOnly_ok _) fun _ => tame_copyOut _ _ _ _ _

theorem tame_readLine (n : ℕ) (k : Kernel κ) : Tame (readLine n k) := by
  induction n generalizing k with
  | zero => exact stopsOnly_ok _
  | succ n ih =>
    refine stopsOnly_bind ?_ fun c k₁ _ => ?_
    · intro e he
      unfold readChar at he
      split at he <;> cases he
      exact tame_away
    · refine stopsOnly_ite (fun _ => stopsOnly_ok _) fun _ => ?_
      exact stopsOnly_bind (ih _) fun _ _ _ => stopsOnly_ok _

theorem tame_putUntilNul (b : Buffer) (lengthWrite n : ℕ) (k : Kernel κ) :
    Tame (putUntilNul b lengthWrite n k) := by
  induction n generalizing lengthWrite k with
  | zero => exact stopsOnly_ok _
  | succ n ih =>
    refine stopsOnly_ite (fun _ => stopsOnly_ok _) fun _ => ?_
    exact stopsOnly_bind (stopsOnly_ok _) fun _ _ _ => ih _ _

theorem tame_putString (fuel : ℕ) (virtAddr : Int) (buf : Buffer) (k : Kernel κ) :
    Tame (putString env fuel virtAddr buf k) := by
  induction fuel generalizing virtAddr buf k with
  | zero =>
    intro e he
    cases he
    exact tame_away
  | succ fuel ih =>
    refine stopsOnly_bind (tame_putUntilNul _ _ _ _) fun n k₁ _ => ?_
    refine stopsOnly_ite (fun _ => ?_) fun _ => stopsOnly_ok _
    exact stopsOnly_bind (tame_user2System (by decide) _) fun _ _ _ => ih _ _ _

theorem onFile_eq {m : OpenFile → Host → Except Stop (α × OpenFile × Host)} {a : α}
    {f' : OpenFile} {h' : Host} (hf : k.fileSystem.openfile i = some f)
    (hm : m f k.host = .ok (a, f', h')) : onFile i m k =
      .ok (a, { k with fileSystem := k.fileSystem.setFile i (some f'), host := h' }) := by
  simp only [onFile, hf, hm]

theorem onFile_error {m : OpenFile → Host → Except Stop (α × OpenFile × Host)} {e : Stop}
    (hf : k.fileSystem.openfile i = some f) (hm : m f k.host = .error e) :
    onFile i m k = .error e := by
  simp only [onFile, hf, hm]

/-- A file that a transfer can start on: a socket with a connection, or a file whose
`currentOffset` is that of the host. -/
def Ready (h : Host) (f : OpenFile) : Prop :=
  (f.socketH = true ∧ f.isConnect = true) ∨ f.socketH = false ∧
    ∃ (n o : ℕ), h.fds f.file = some (.file n o) ∧ (o : Int) ≤ intMax ∧ f.currentOffset = o

/-- `GetCurrentPos` does not fail, and leaves a file ready. -/
theorem getCurrentPos_total (hx : Files.Ok (files k)) (hf : k.fileSystem.openfile i = some f) :
    ∃ p k₁, getCurrentPos i k = .ok (p, k₁) ∧
      k₁.fileSystem.openfile i = some { f with currentOffset := p } ∧ k₁.host = k.host ∧
      k₁.machine = k.machine ∧
      (f.type ≠ 2 ∨ f.isConnect = true → Ready k₁.host { f with currentOffset := p }) := by
  by_cases ht : f.type = 2
  · have hfd : k.host.fds f.file = _ := (hx.backed i f hf).socket ht
    have hpos : f.getCurrentPos k.host = (-1, { f with currentOffset := -1 }, k.host) := by
      simp only [OpenFile.getCurrentPos, OpenFile.tell, Host.lseek, hfd]
    refine ⟨_, _, onFile_eq hf (congrArg Except.ok hpos), Function.update_self .., rfl, rfl,
      fun hc => .inl ⟨(hx.derived i f hf).mpr ht, ?_⟩⟩
    exact hc.resolve_left fun hne => hne ht
  · obtain ⟨hs, n, o, hfd, ho, -⟩ := hx.file hf ht
    have hpos := OpenFile.getCurrentPos_file (f := f) (h := k.host) hfd ho
    exact ⟨_, _, onFile_eq hf (congrArg Except.ok hpos), Function.update_self .., rfl, rfl,
      fun _ => .inr ⟨hs, n, o, hfd, ho, rfl⟩⟩

theorem read_of_file {buf : Buffer} {count r : Int} {bytes : List UInt8} {g : OpenFile}
    {h' : Host} (hf : k.fileSystem.openfile i = some f)
    (hr : f.read k.host env count = .ok (r, bytes, g, h')) :
    ∃ k', read env i buf count k = .ok ((r, buf.store bytes), k') := by
  have hon : onFile i (fun f h => do
      let r ← f.read h env count
      return ((r.1, r.2.1), r.2.2)) k = .ok ((r, bytes),
        { k with fileSystem := k.fileSystem.setFile i (some g), host := h' }) := by
    apply onFile_eq hf
    rw [hr]
    rfl
  exact ⟨_, bind_of_ok hon⟩

theorem write_of_file {buf : Buffer} {count r : Int} {g : OpenFile} {h' : Host}
    (hf : k.fileSystem.openfile i = some f)
    (hw : f.write k.host env buf.byte count = .ok (r, g, h')) :
    ∃ k', write env i buf count k = .ok (r, k') := by
  have hon : onFile i (fun f h => f.write h env buf.byte count) k = .ok (r,
      { k with fileSystem := k.fileSystem.setFile i (some g), host := h' }) := onFile_eq hf hw
  exact ⟨_, bind_of_ok hon⟩

theorem read_total (env : Env) (hf : k.fileSystem.openfile i = some f) (hr : Ready k.host f)
    (buf : Buffer) (count : Int) :
    ∃ k', read env i buf count k = .ok (((k.host.read env f.file count).1,
      buf.store (k.host.read env f.file count).2.1), k') := by
  rcases hr with ⟨hs, hc⟩ | ⟨hs, n, o, hfd, ho, hcur⟩
  · apply read_of_file hf
    rw [OpenFile.read, if_pos hs, if_pos hc]
  · apply read_of_file hf
    rw [OpenFile.read, if_neg (by rw [hs]; nofun), OpenFile.readAt, hcur,
      OpenFile.lseek_here hfd ho]
    rfl

theorem write_socket_total (env : Env) (hf : k.fileSystem.openfile i = some f)
    (hs : f.socketH = true) (hc : f.isConnect = true) (buf : Buffer) (count : Int) :
    ∃ k', write env i buf count k = .ok ((k.host.write env f.file buf.byte count).1, k') := by
  apply write_of_file hf
  rw [OpenFile.write, if_pos hs, if_pos hc]

theorem write_file_total (env : Env) (hf : k.fileSystem.openfile i = some f)
    (hs : f.socketH = false) {n o : ℕ} (hfd : k.host.fds f.file = some (.file n o))
    (ho : (o : Int) ≤ intMax) (hcur : f.currentOffset = o) (buf : Buffer) (count : Int) :
    if (k.host.write env f.file buf.byte count).1 = count then
      ∃ k', write env i buf count k = .ok (count, k')
    else write env i buf count k = .error (.abort (.writeFile count o)) := by
  have hwrite : f.write k.host env buf.byte count =
      (f.writeFile k.host env buf.byte count >>= fun h => .ok
        (count, { f with currentOffset := wrap (f.currentOffset + count) }, h)) := by
    rw [OpenFile.write, if_neg (by rw [hs]; nofun), OpenFile.writeAt, hcur,
      OpenFile.lseek_here hfd ho]
    change Except.bind (Except.bind (f.writeFile k.host env buf.byte count) _) _ = _
    cases f.writeFile k.host env buf.byte count <;> rfl
  split_ifs with hres
  · apply write_of_file hf
    rw [hwrite, OpenFile.writeFile, if_pos hres]
    rfl
  · apply bind_of_error
    apply onFile_error hf
    rw [hwrite, OpenFile.writeFile, if_neg hres, Host.offset, hfd]
    rfl

def BadId (x : Files) (id : Int) : Prop := ∀ i : Fin 20, (i : Int) = id → x.1.openfile i = none

theorem badId_or_live (x : Files) (id : Int) :
    BadId x id ∨ ∃ (i : Fin 20) (f : OpenFile), (i : Int) = id ∧ x.1.openfile i = some f := by
  by_contra hne
  rw [not_or, not_exists] at hne
  refine hne.1 fun i hi => ?_
  cases hf : x.1.openfile i with
  | none => rfl
  | some f => exact absurd ⟨f, hi, hf⟩ (hne.2 i)

theorem live_iff {x : Files} {id : Int} {P : Fin 20 → OpenFile → Prop} (hi : (i : Int) = id)
    (hf : x.1.openfile i = some f) :
    (∀ (j : Fin 20) (g : OpenFile), (j : Int) = id → x.1.openfile j = some g → P j g) ↔ P i f := by
  constructor
  · intro h
    exact h i f hi hf
  · intro h j g hj hg
    obtain rfl : i = j := Fin.ext (by omega)
    cases hf.symm.trans hg
    exact h

theorem openfileAt_eq {id : Int} (hi : (i : Int) = id) :
    openfileAt id k = .ok ((k.fileSystem.openfile i).map fun f => (i, f), k) := by
  have h : 0 ≤ id ∧ id < 20 := by omega
  have hj : (⟨id.toNat, by omega⟩ : Fin 20) = i := Fin.ext (by simp only; omega)
  rw [openfileAt, dif_pos h]
  simp only [hj]

theorem byId_bad {lo id : Int} {g : Option (Fin 20 × OpenFile) → Sys κ Unit} (hlo : 0 ≤ lo)
    (hg : g none = ret (-1)) (hbad : BadId (files k) id) :
    (if id < lo ∨ id ≥ 20 then ret (-1) else openfileAt id >>= g) k = ret (-1) k := by
  split_ifs with h
  · rfl
  · have hi : ((⟨id.toNat, by omega⟩ : Fin 20) : Int) = id := by simp only; omega
    rw [bind_of_ok (openfileAt_eq hi), show k.fileSystem.openfile _ = none from hbad _ hi,
      Option.map_none, hg]

theorem byId_live {id : Int} (lo : Int) {g : Option (Fin 20 × OpenFile) → Sys κ Unit}
    (hi : (i : Int) = id) (hlo : lo ≤ id) (hf : k.fileSystem.openfile i = some f) :
    (if id < lo ∨ id ≥ 20 then ret (-1) else openfileAt id >>= g) k = g (some (i, f)) k := by
  rw [if_neg (by omega), bind_of_ok (openfileAt_eq hi), hf, Option.map_some]

/-- A count that `User2System` can allocate a buffer for. -/
def CountOk (count : Int) : Prop := 0 ≤ count ∧ count < intMax

theorem wrap_count {count : Int} (h : CountOk count) : 0 ≤ wrap (count + 1) := by
  unfold CountOk intMax at h
  unfold wrap
  omega

theorem count_cases {count : Int} (h : intMin ≤ count ∧ count ≤ intMax) :
    (¬CountOk count ∧ count ≠ -1 ∧ wrap (count + 1) < 0) ∨ count = -1 ∨
      CountOk count ∧ 0 ≤ wrap (count + 1) := by
  unfold CountOk wrap intMin intMax at *
  omega

/-- An outcome with no fault of the arguments, which is -1 if the arguments are invalid. -/
def Passes (invalid : Prop) (r : Except Stop (Unit × Kernel κ)) : Prop :=
  Tame r ∧ (invalid → ∃ k', r = .ok ((), k') ∧ regs k' 2 = -1)

theorem passes_ret {p : Prop} : Passes p (ret (-1) k) := ⟨stopsOnly_ok _, fun _ => ⟨_, rfl, rfl⟩⟩

theorem not_passes_badAlloc {p : Prop} {size : Int} {r : Except Stop (Unit × Kernel κ)}
    (hr : r = .error (.abort (.badAlloc size))) : ¬Passes p r :=
  fun h => h.1 _ hr _ rfl trivial

theorem passes_of_tame {id count : Int} {r : Except Stop (Unit × Kernel κ)} (hi : (i : Int) = id)
    (hf : k.fileSystem.openfile i = some f) (hcount : CountOk count) (h : Tame r) :
    Passes (BadId (files k) id ∨ count < 0) r := by
  refine ⟨h, ?_⟩
  rintro (hbad | hneg)
  · cases (hbad i hi).symm.trans hf
  · exact absurd hneg (not_lt.mpr hcount.1)

/-- A call that fetches its buffer in `k₁` and goes on with it.  It passes with a count that can be
allocated, and with -1 if it passes without any byte in the buffer. -/
theorem passes_fetched {T : Env → Buffer → Sys κ Unit} {virtAddr count id : Int} {k₁ : Kernel κ}
    {P : Prop} (hi : (i : Int) = id) (hf : k.fileSystem.openfile i = some f)
    (hword : intMin ≤ count ∧ count ≤ intMax)
    (hminus : count = -1 →
      ((∀ env, Passes (BadId (files k) id ∨ count < 0) (T env ⟨0, env.junk⟩ k₁)) ↔ P))
    (htame : CountOk count → ∀ env buf k₂, files k₂ = files k₁ → Tame (T env buf k₂)) :
    (∀ env, Passes (BadId (files k) id ∨ count < 0)
      ((user2System env virtAddr count >>= T env) k₁)) ↔ CountOk count ∨ count = -1 ∧ P := by
  rcases count_cases hword with ⟨hcount, hne, halloc⟩ | rfl | ⟨hcount, halloc⟩
  · refine iff_of_false (fun h => ?_) (by tauto)
    exact not_passes_badAlloc (bind_of_error (user2System_badAlloc halloc k₁)) (h noEnv)
  · have hcount : ¬CountOk (-1) := fun h => absurd h.1 (by decide)
    simp only [bind_of_ok (user2System_minus _ _), hcount, true_and, false_or]
    exact hminus rfl
  · refine iff_of_true (fun env => passes_of_tame hi hf hcount ?_) (.inl hcount)
    refine stopsOnly_bind (tame_user2System halloc _) fun buf k₂ hk₂ => ?_
    exact htame hcount env buf k₂ (keeps_files (keeps_user2System _ _ _) _ _ _ hk₂)

theorem openfile_of_files {k₁ k₂ : Kernel κ} (h : files k₂ = files k₁)
    (hf : k₁.fileSystem.openfile i = some f) : k₂.fileSystem.openfile i = some f := by
  rwa [show k₂.fileSystem = k₁.fileSystem from congrArg Prod.fst h]

theorem delete_backed {h : Host} (hb : h.Backs f) : f.delete h = .ok (h.setFd f.file none) := by
  have hfd : (h.fds f.file).isSome = true := by
    unfold Host.Backs at hb
    split at hb
    · next hfd => rw [hfd]; rfl
    · next hfd => rw [hfd]; rfl
    · cases hb
  unfold OpenFile.delete Host.close
  rw [hfd, if_neg fun hc => Bool.noConfusion hc.2]

theorem passes_scClose (hx : Files.Ok (files k)) :
    Passes (BadId (files k) (regs k 4)) (scClose k) := by
  simp only [scClose, readRegister_bind]
  rcases badId_or_live (files k) (regs k 4) with hbad | ⟨i, f, hi, hf⟩
  · rw [byId_bad (by decide) rfl hbad]
    exact passes_ret
  by_cases hlo : 2 ≤ regs k 4
  · rw [byId_live 2 hi hlo hf]
    refine ⟨?_, fun hbad => by cases (hbad i hi).symm.trans hf⟩
    refine stopsOnly_bind (stopsOnly_ok _) fun _ _ hk => ?_
    cases hk
    refine stopsOnly_bind (stopsOnly_ok _) fun _ _ hk => ?_
    cases hk
    refine stopsOnly_bind (stopsOnly_ok _) fun _ _ hk => ?_
    cases hk
    refine stopsOnly_bind ?_ fun _ _ _ => stopsOnly_ok _
    dsimp only
    rw [delete_backed (h := k.host) (hx.backed i f hf)]
    exact stopsOnly_ok _
  · rw [if_pos (.inl (by omega))]
    exact passes_ret

theorem passes_scConnect : Passes (BadId (files k) (regs k 4)) (scConnect env k) := by
  simp only [scConnect, readRegister_bind]
  rcases badId_or_live (files k) (regs k 4) with hbad | ⟨i, f, hi, hf⟩
  · rw [byId_bad (by decide) rfl hbad]
    exact passes_ret
  by_cases hlo : 2 ≤ regs k 4
  · rw [byId_live 2 hi hlo hf]
    refine ⟨?_, fun hbad => by cases (hbad i hi).symm.trans hf⟩
    refine stopsOnly_bind (tame_user2System (by decide) _) fun _ k₁ hk₁ => ?_
    have hf₁ : k₁.fileSystem.openfile i = some f := by
      rw [show k₁.fileSystem = k.fileSystem from
        congrArg Prod.fst (keeps_files (keeps_user2System _ _ _) _ _ _ hk₁)]
      exact hf
    refine stopsOnly_bind ?_ fun r k₂ _ => ?_
    · rw [connect, onFile_eq hf₁ rfl]
      exact stopsOnly_ok _
    · exact stopsOnly_ite (fun _ => stopsOnly_ok _) fun _ => stopsOnly_ok _
  · rw [if_pos (.inl (by omega))]
    exact passes_ret

theorem length_total (hx : Files.Ok (files k)) (hf : k.fileSystem.openfile i = some f)
    (ht : f.type ≠ 2) : ∃ (l : ℕ) (k₁ : Kernel κ), length i k = .ok ((l : Int), k₁) ∧
      (files k).fileLength i = some l := by
  obtain ⟨-, n, o, hfd, -, hlen⟩ := hx.file hf ht
  have hm := congrArg (· >>= fun r => .ok (r.1, f, r.2))
    (OpenFile.length_file (h := k.host) hfd hlen)
  exact ⟨_, _, onFile_eq hf hm, Files.fileLength_eq hf hfd⟩

theorem seek_total (hx : Files.Ok (files k)) (hf : k.fileSystem.openfile i = some f)
    (ht : f.type ≠ 2) (pos : Int) (hmax : pos ≤ intMax) :
    if 0 ≤ pos then ∃ k₁, seek i pos k = .ok ((), k₁)
    else seek i pos k = .error (.abort (.lseek pos 0)) := by
  obtain ⟨-, n, o, hfd, -, -⟩ := hx.file hf ht
  split_ifs with hpos
  · have hm := congrArg (· >>= fun r => .ok ((), r))
      (OpenFile.seek_file (h := k.host) hfd hpos hmax)
    exact ⟨_, onFile_eq hf hm⟩
  · apply onFile_error hf
    rw [OpenFile.seek_neg (h := k.host) hfd (by omega)]
    rfl

/-- The arguments that `Seek` has to refuse. -/
def BadSeek (x : Files) (pos id : Int) : Prop :=
  BadId x id ∨ pos < -1 ∨ ∃ (i : Fin 20) (l : ℕ), (i : Int) = id ∧ x.fileLength i = some l ∧ l < pos

theorem passes_seek (hx : Files.Ok (files k)) (hf : k.fileSystem.openfile i = some f)
    (ht : f.type ≠ 2) {pos : Int} (hid : (i : Int) = regs k 5) :
    Passes (BadSeek (files k) pos (regs k 5)) ((do
      let len ← length i
      if pos > len then ret (-1)
      else
        let pos := if pos = -1 then len else pos
        seek i pos
        ret pos) k) ↔ -1 ≤ pos := by
  obtain ⟨l, k₁, hk₁, hl⟩ := length_total hx hf ht
  obtain ⟨l', hl', hll', hmax, hend⟩ := length_spec hx hf ht hk₁
  cases hl.symm.trans hl'
  rw [bind_of_ok hk₁]
  -- past the end the call returns -1; below -1 `Lseek` fails its assertion
  by_cases hpos : pos > l
  · rw [if_pos hpos]
    exact iff_of_true passes_ret (by omega)
  rw [if_neg hpos]
  obtain ⟨g, hg, hcore⟩ := hend.toSameTable.after hf
  have hgt : g.type ≠ 2 := by
    rw [show g.type = f.type from congrArg (·.2.1) hcore]
    exact ht
  have hseek := seek_total (hx.moved hend) hg hgt (if pos = -1 then (l : Int) else pos)
    (by split_ifs <;> omega)
  by_cases hneg : -1 ≤ pos
  · refine iff_of_true ⟨?_, ?_⟩ hneg
    · rw [if_pos (by split_ifs <;> omega)] at hseek
      obtain ⟨k₂, hk₂⟩ := hseek
      rw [bind_of_ok hk₂]
      exact stopsOnly_ok _
    · rintro (hbad | hlt | ⟨j, l', hj, hjl, hlt⟩)
      · cases (hbad i hid).symm.trans hf
      · omega
      · obtain rfl : i = j := Fin.ext (by omega)
        cases hl.symm.trans hjl
        omega
  · refine iff_of_false (fun h => ?_) hneg
    rw [if_neg (by split_ifs <;> omega)] at hseek
    exact h.1 _ (bind_of_error hseek) _ rfl trivial

theorem passes_scSeek (hx : Files.Ok (files k)) :
    Passes (BadSeek (files k) (regs k 4) (regs k 5)) (scSeek k) ↔
      0 ≤ regs k 5 ∧ ∀ i : Fin 20, (2 : ℕ) ≤ i → (i : Int) = regs k 5 →
        ((files k).fileLength i).isSome → -1 ≤ regs k 4 := by
  simp only [scSeek, readRegister_bind]
  -- the ids that `SC_Seek` checks for; a negative one goes on to the table
  by_cases hid : regs k 5 = 0 ∨ regs k 5 = 1 ∨ regs k 5 ≥ 20
  · rw [if_pos hid]
    exact iff_of_true passes_ret ⟨by omega, fun i hi hi5 => by omega⟩
  rw [if_neg hid]
  by_cases hneg : 0 ≤ regs k 5
  · obtain ⟨i, hi⟩ : ∃ i : Fin 20, (i : Int) = regs k 5 :=
      ⟨⟨(regs k 5).toNat, by omega⟩, by simp only; omega⟩
    have hlen : (0 ≤ regs k 5 ∧ ∀ i : Fin 20, (2 : ℕ) ≤ i → (i : Int) = regs k 5 →
        ((files k).fileLength i).isSome → -1 ≤ regs k 4) ↔
        (((files k).fileLength i).isSome → -1 ≤ regs k 4) := by
      constructor
      · intro h
        exact h.2 i (by omega) hi
      · refine fun h => ⟨hneg, fun j _ hj => ?_⟩
        obtain rfl : i = j := Fin.ext (by omega)
        exact h
    rw [hlen, bind_of_ok (openfileAt_eq hi)]
    cases hf : k.fileSystem.openfile i with
    | none =>
      refine iff_of_true passes_ret fun hsome => ?_
      rw [Files.fileLength_free (x := files k) hf] at hsome
      cases hsome
    | some f =>
      rw [Option.map_some]
      dsimp only
      by_cases ht : f.type = 2
      · rw [if_pos ht]
        refine iff_of_true passes_ret fun hsome => ?_
        rw [hx.fileLength_socket hf ht] at hsome
        cases hsome
      · obtain ⟨l, -, -, hl⟩ := length_total hx hf ht
        rw [if_neg ht, passes_seek hx hf ht hi, hl, Option.isSome_some]
        exact ⟨fun h _ => h, fun h => h rfl⟩
  · refine iff_of_false (fun h => ?_) fun h => hneg h.1
    have herror : openfileAt (regs k 5) k = .error (.abort (.index (regs k 5))) := by
      rw [openfileAt, dif_neg fun h => hneg h.1]
    exact h.1 _ (bind_of_error herror) _ rfl trivial

theorem tame_getCurrentPos (hf : k.fileSystem.openfile i = some f) : Tame (getCurrentPos i k) := by
  rw [getCurrentPos, onFile_eq hf rfl]
  exact stopsOnly_ok _

theorem onFile_slot {α : Type} {m : OpenFile → Host → Except Stop (α × OpenFile × Host)} {q : α}
    {k₁ : Kernel κ} (hq : onFile i m k = .ok (q, k₁)) (hfiles : files k' = files k₁) :
    ∃ g, k'.fileSystem.openfile i = some g := by
  obtain ⟨-, g, h', -, -, hk₁⟩ := onFile_ok hq
  refine ⟨g, ?_⟩
  rw [show k'.fileSystem = _ from congrArg Prod.fst (hfiles.trans hk₁)]
  exact Function.update_self ..

theorem read_slot {buf : Buffer} {count : Int} {r : Int × Buffer}
    (h : read env i buf count k = .ok (r, k')) : ∃ g, k'.fileSystem.openfile i = some g := by
  obtain ⟨q, k₁, hq, h⟩ := bind_ok h
  obtain ⟨_, k₂, hk₂, h⟩ := bind_ok h
  cases h
  exact onFile_slot hq (keeps_files (keeps_setOverrun _) _ _ _ hk₂)

theorem tame_readRegular {virtAddr oldPos count : Int} {buf : Buffer}
    (hf : k.fileSystem.openfile i = some f) (hr : Ready k.host f) :
    Tame (readRegular env i virtAddr oldPos buf count k) := by
  obtain ⟨k₁, hk₁⟩ := read_total env hf hr buf count
  refine stopsOnly_bind (hk₁ ▸ stopsOnly_ok _) fun r k₂ hk₂ => ?_
  obtain ⟨g, hg⟩ := read_slot hk₂
  refine stopsOnly_ite (fun _ => ?_) fun _ => stopsOnly_ok _
  refine stopsOnly_bind (tame_getCurrentPos hg) fun newPos k₃ _ => ?_
  exact stopsOnly_bind (tame_system2User _ _ _ _) fun _ _ _ => stopsOnly_ok _

theorem tame_readSocket {virtAddr count : Int} {buf : Buffer}
    (hf : k.fileSystem.openfile i = some f) (hr : Ready k.host f) :
    Tame (readSocket env i virtAddr buf count k) := by
  obtain ⟨k₁, hk₁⟩ := read_total env hf hr buf count
  refine stopsOnly_bind (hk₁ ▸ stopsOnly_ok _) fun r k₂ hk₂ => ?_
  refine stopsOnly_ite (fun _ => ?_) fun _ => stopsOnly_ok _
  exact stopsOnly_bind (tame_system2User _ _ _ _) fun _ _ _ => stopsOnly_ok _

theorem readRegular_result (hx : Files.Ok (files k)) {o : ℕ} (hs : Files.Synced (files k) i o)
    {virtAddr count : Int} {buf : Buffer} {u : Unit}
    (h : readRegular env i virtAddr o buf count k = .ok (u, k')) :
    ∃ r k₁, read env i buf count k = .ok (r, k₁) ∧ (0 < r.1 → regs k' 2 = r.1) := by
  obtain ⟨r, k₁, hk₁, h⟩ := bind_ok h
  refine ⟨r, k₁, hk₁, fun hpos => ?_⟩
  rcases read_spec hx hs hk₁ with ⟨hle, -⟩ | ⟨-, hmoved, -⟩
  · omega
  rcases ite_ok h with ⟨-, h⟩ | ⟨hle, h⟩
  · obtain ⟨newPos, k₂, hk₂, h⟩ := bind_ok h
    obtain ⟨-, -, hpos₂⟩ := getCurrentPos_spec (hx.moved hmoved) hk₂
    obtain ⟨rfl, -⟩ := hpos₂ _ hmoved.offset_self
    obtain ⟨_, k₃, hk₃, h⟩ := bind_ok h
    rw [show regs k' 2 = _ from (ret_ok h).2]
    omega
  · exact absurd hpos hle

theorem readSocket_result {virtAddr count : Int} {buf : Buffer} {u : Unit}
    (h : readSocket env i virtAddr buf count k = .ok (u, k')) :
    ∃ r k₁, read env i buf count k = .ok (r, k₁) ∧ (0 < r.1 → regs k' 2 = r.1) := by
  obtain ⟨r, k₁, hk₁, h⟩ := bind_ok h
  refine ⟨r, k₁, hk₁, fun hpos => ?_⟩
  rcases ite_ok h with ⟨-, h⟩ | ⟨hle, h⟩
  · obtain ⟨_, k₂, hk₂, h⟩ := bind_ok h
    exact (ret_ok h).2
  · exact absurd hpos hle

/-- A file from which nothing can be read: a socket without a connection, or a file at its
end. -/
def Idle (x : Files) (i : Fin 20) (f : OpenFile) : Prop :=
  if f.type = 2 then f.isConnect = false
  else ∃ o l : ℕ, x.offset i = some o ∧ x.fileLength i = some l ∧ l ≤ o

def oneByte : Env :=
  { noEnv with limit := some 1, arrived := [0], junk := fun j => if j = 0 then 1 else 0 }

theorem host_read_end {h : Host} {fd n o : ℕ} (hfd : h.fds fd = some (.file n o))
    (hend : (h.data n).length ≤ o) (env : Env) (count : Int) : (h.read env fd count).1 ≤ 0 := by
  rcases Host.read_file hfd env count with hr | ⟨bytes, hpre, hr⟩ <;> rw [hr]
  · exact show (-1 : Int) ≤ 0 by decide
  · rw [List.drop_eq_nil_of_le hend] at hpre
    rw [List.prefix_nil.mp hpre]
    rfl

theorem host_read_one {h : Host} {fd n o : ℕ} (hfd : h.fds fd = some (.file n o))
    (hlt : o < (h.data n).length) : (h.read oneByte fd (-1)).1 = 1 := by
  have hlen : (((h.data n).drop o).take 1).length = 1 := by
    rw [List.length_take, List.length_drop]
    omega
  unfold Host.read
  rw [hfd]
  exact congrArg Nat.cast hlen

theorem host_read_socket {h : Host} {fd : ℕ} (hfd : h.fds fd = some .socket) :
    (h.read oneByte fd (-1)).1 = 1 := by
  unfold Host.read
  rw [hfd]
  rfl

theorem not_passes_of_result {p : Prop} {r : Except Stop (Unit × Kernel κ)} (hp : p)
    (hr : ∀ k', r = .ok ((), k') → regs k' 2 ≠ -1) : ¬Passes p r := by
  intro h
  obtain ⟨k', hk', hr2⟩ := h.2 hp
  exact hr k' hk' hr2

theorem readRegular_minus (hx : Files.Ok (files k)) {o l : ℕ} (hs : Files.Synced (files k) i o)
    (hl : (files k).fileLength i = some l) {virtAddr : Int} {p : Prop} (hp : p) :
    (∀ env, Passes p (readRegular env i virtAddr o ⟨0, env.junk⟩ (-1) k)) ↔ l ≤ o := by
  obtain ⟨f, n, hf, hfd, hcur⟩ := hs
  obtain ⟨hsock, ho, -⟩ := hx.of_fd hf hfd
  have hready : Ready k.host f := .inr ⟨hsock, n, o, hfd, ho, hcur⟩
  cases (Files.fileLength_eq hf hfd).symm.trans hl
  by_cases hend : ((files k).2.data n).length ≤ o
  · refine iff_of_true (fun env => ?_) hend
    obtain ⟨k₁, hk₁⟩ := read_total env hf hready ⟨0, env.junk⟩ (-1)
    rw [readRegular, bind_of_ok hk₁]
    dsimp only
    rw [if_neg (not_lt.mpr (host_read_end (h := k.host) hfd hend env (-1)))]
    exact passes_ret
  · refine iff_of_false (fun h => not_passes_of_result hp (fun k' hk' => ?_) (h oneByte)) hend
    obtain ⟨r, k₁, hk₁, hr⟩ := readRegular_result hx ⟨f, n, hf, hfd, hcur⟩ hk'
    obtain ⟨k₂, hk₂⟩ := read_total oneByte hf hready ⟨0, oneByte.junk⟩ (-1)
    cases hk₁.symm.trans hk₂
    rw [show (k.host.read oneByte f.file (-1)).1 = 1 from
      host_read_one hfd (lt_of_not_ge hend)] at hr
    rw [hr one_pos]
    decide

theorem readSocket_minus (hf : k.fileSystem.openfile i = some f) (hr : Ready k.host f)
    (hfd : k.host.fds f.file = some .socket) {virtAddr : Int} {p : Prop} (hp : p) :
    ¬Passes p (readSocket oneByte i virtAddr ⟨0, oneByte.junk⟩ (-1) k) := by
  refine not_passes_of_result hp fun k' hk' => ?_
  obtain ⟨r, k₁, hk₁, hr2⟩ := readSocket_result hk'
  obtain ⟨k₂, hk₂⟩ := read_total oneByte hf hr ⟨0, oneByte.junk⟩ (-1)
  cases hk₁.symm.trans hk₂
  rw [host_read_socket hfd] at hr2
  rw [hr2 one_pos]
  decide

theorem passes_scRead (hx : Files.Ok (files k)) (hword : intMin ≤ regs k 5 ∧ regs k 5 ≤ intMax) :
    (∀ env, Passes (BadId (files k) (regs k 6) ∨ regs k 5 < 0) (scRead env k)) ↔
      ∀ (i : Fin 20) (f : OpenFile), (i : Int) = regs k 6 → (files k).1.openfile i = some f →
        CountOk (regs k 5) ∨ regs k 5 = -1 ∧ i ≠ 0 ∧ Idle (files k) i f := by
  -- an id without an open file is refused before anything else is looked at
  rcases badId_or_live (files k) (regs k 6) with hbad | ⟨i, f, hi, hf⟩
  · refine iff_of_true (fun env => ?_) fun i f hi hf => by cases (hbad i hi).symm.trans hf
    simp only [scRead, readRegister_bind]
    rw [byId_bad le_rfl rfl hbad]
    exact passes_ret
  rw [live_iff hi hf]
  simp only [scRead, readRegister_bind, byId_live 0 hi (by omega) hf]
  obtain ⟨p, k₁, hk₁, hg, hhost, -, hready⟩ := getCurrentPos_total hx hf
  simp only [bind_of_ok hk₁]
  refine passes_fetched hi hf hword (fun hminus => ?_) fun hcount env buf k₂ hfiles => ?_
  · simp only [hminus]
    by_cases hzero : regs k 6 = 0
    · simp only [if_pos hzero]
      refine iff_of_false (fun h => ?_) fun h => h.1 (Fin.ext (by simp only [Fin.val_zero]; omega))
      refine not_passes_of_result (.inr (by decide)) (fun k' hk' => ?_) (h noEnv)
      cases hk'
      exact show (0 : Int) ≠ -1 by decide
    have hi0 : i ≠ 0 := by
      rintro rfl
      exact hzero hi.symm
    simp only [if_neg hzero, ne_eq, hi0, not_false_eq_true, true_and]
    unfold Idle
    -- a count of -1 gets past the buffer: only where nothing can be read does the call still fail
    by_cases ht : f.type = 2
    · have hfd : k₁.host.fds f.file = some .socket := by
        rw [hhost]
        exact (hx.backed i f hf).socket ht
      rw [if_pos ht]
      simp only [if_neg (show ¬(f.type = 0 ∨ f.type = 1) by omega)]
      cases hc : f.isConnect with
      | false => exact iff_of_true (fun env => by simpa [ht] using passes_ret) rfl
      | true =>
        simp only [ht, true_and, if_true]
        refine iff_of_false (fun h => ?_) (by decide)
        exact readSocket_minus hg (hready (.inr hc)) hfd (.inr (by decide)) (h oneByte)
    · obtain ⟨o, ho⟩ := hx.offset_file hf ht
      obtain ⟨l, -, -, hl⟩ := length_total hx hf ht
      obtain ⟨hquiet, hcontents, hpos⟩ := getCurrentPos_spec hx hk₁
      obtain ⟨rfl, hsync⟩ := hpos o ho
      have hl₁ : (files k₁).fileLength i = some l := by
        rw [Files.fileLength, hcontents]
        exact hl
      have htype : f.type = 0 ∨ f.type = 1 := by
        have := hx.typed i f hf
        omega
      simp only [if_neg ht, if_pos htype, ho, hl, Option.some.injEq]
      rw [readRegular_minus (hx.quiet hquiet) hsync hl₁ (.inr (by decide))]
      constructor
      · intro hle
        exact ⟨o, l, rfl, rfl, hle⟩
      · rintro ⟨_, _, rfl, rfl, hle⟩
        exact hle
  · have hg₂ := openfile_of_files hfiles hg
    rw [← show k₂.host = k₁.host from congrArg Prod.snd hfiles] at hready
    refine stopsOnly_ite (fun _ => ?_) fun _ => stopsOnly_ite (fun ht => ?_) fun _ =>
      stopsOnly_ite (fun ht => ?_) fun _ => stopsOnly_ok _
    · refine stopsOnly_bind (tame_readLine _ _) fun line _ _ => ?_
      refine stopsOnly_bind (stopsOnly_ok _) fun _ _ _ => ?_
      exact stopsOnly_bind (tame_system2User _ _ _ _) fun _ _ _ => stopsOnly_ok _
    · exact tame_readRegular hg₂ (hready (.inl (by omega)))
    · exact tame_readSocket hg₂ (hready (.inr ht.2))

theorem write_slot {buf : Buffer} {count r : Int} (h : write env i buf count k = .ok (r, k')) :
    ∃ g, k'.fileSystem.openfile i = some g := by
  obtain ⟨q, k₁, hq, h⟩ := bind_ok h
  obtain ⟨_, k₂, hk₂, h⟩ := bind_ok h
  cases h
  exact onFile_slot hq (keeps_files (keeps_setOverrun _) _ _ _ hk₂)

theorem tame_writeFile {count : Int} {o : ℕ} (h : 0 ≤ count) (hend : o + count ≤ intMax) :
    (Stop.abort (.writeFile count o)).Tame := by
  intro f hf
  cases hf
  exact not_or.mpr ⟨not_lt.mpr h, not_lt.mpr hend⟩

theorem tame_writeRegular {oldPos count : Int} {buf : Buffer} (hcount : 0 ≤ count)
    (hf : k.fileSystem.openfile i = some f) (hs : f.socketH = false) (hr : Ready k.host f)
    (hend : ∀ o, (files k).offset i = some o → o + count ≤ intMax) :
    Tame (writeRegular env i oldPos buf count k) := by
  obtain ⟨-, n, o, hfd, ho, hcur⟩ := hr.resolve_left fun h => by simp [hs] at h
  have hend := hend o (Files.offset_eq (x := files k) hf hfd)
  have hw := write_file_total env hf hs hfd ho hcur buf count
  refine stopsOnly_bind ?_ fun r k₁ hk₁ => ?_
  · split_ifs at hw
    · obtain ⟨k₁, hk₁⟩ := hw
      exact hk₁ ▸ stopsOnly_ok _
    · intro e he
      cases hw.symm.trans he
      exact tame_writeFile hcount hend
  · obtain ⟨g, hg⟩ := write_slot hk₁
    refine stopsOnly_ite (fun _ => ?_) fun _ => stopsOnly_ok _
    exact stopsOnly_bind (tame_getCurrentPos hg) fun _ _ _ => stopsOnly_ok _

theorem writeRegular_minus {oldPos : Int} {buf : Buffer} {p : Prop}
    (hf : k.fileSystem.openfile i = some f) (hs : f.socketH = false) (hr : Ready k.host f) :
    ¬Passes p (writeRegular oneByte i oldPos buf (-1) k) := by
  obtain ⟨-, n, o, hfd, ho, hcur⟩ := hr.resolve_left fun h => by simp [hs] at h
  have hw := write_file_total oneByte hf hs hfd ho hcur buf (-1)
  have hone : (k.host.write oneByte f.file buf.byte (-1)).1 = 1 := by
    unfold Host.write
    rw [hfd]
    rfl
  rw [hone, if_neg (by decide)] at hw
  exact fun h => h.1 _ (bind_of_error hw) _ rfl (.inl (by decide))

theorem writeRegular_past {oldPos count : Int} {buf : Buffer} {p : Prop} {o : ℕ}
    (hf : k.fileSystem.openfile i = some f) (hs : f.socketH = false) (hr : Ready k.host f)
    (ho : (files k).offset i = some o) (hcount : CountOk count) (hend : intMax < o + count) :
    ¬Passes p (writeRegular env i oldPos buf count k) := by
  obtain ⟨-, n, o', hfd, ho', hcur⟩ := hr.resolve_left fun h => by simp [hs] at h
  cases (Files.offset_eq (x := files k) hf hfd).symm.trans ho
  have hw := write_file_total env hf hs hfd ho' hcur buf count
  have hne : (k.host.write env f.file buf.byte count).1 ≠ count := by
    obtain ⟨h0, h1⟩ := hcount
    unfold Host.write
    rw [hfd]
    unfold intMax at *
    cases env.limit with
    | none =>
      dsimp only
      omega
    | some limit =>
      dsimp only
      unfold unsigned
      split_ifs <;> dsimp only <;> omega
  rw [if_neg hne] at hw
  exact fun h => h.1 _ (bind_of_error hw) _ rfl (.inr hend)

theorem tame_writeSocket {count : Int} {buf : Buffer} (hf : k.fileSystem.openfile i = some f)
    (hs : f.socketH = true) (hc : f.isConnect = true) :
    Tame (writeSocket env i buf count k) := by
  obtain ⟨k₁, hk₁⟩ := write_socket_total env hf hs hc buf count
  refine stopsOnly_bind (hk₁ ▸ stopsOnly_ok _) fun r k₂ _ => ?_
  exact stopsOnly_ite (fun _ => stopsOnly_ok _) fun _ => stopsOnly_ok _

theorem writeSocket_minus {buf : Buffer} {p : Prop} (hf : k.fileSystem.openfile i = some f)
    (hs : f.socketH = true) (hc : f.isConnect = true)
    (hfd : k.host.fds f.file = some .socket) (hp : p) :
    ¬Passes p (writeSocket oneByte i buf (-1) k) := by
  refine not_passes_of_result hp fun k' hk' => ?_
  obtain ⟨k₁, hk₁⟩ := write_socket_total oneByte hf hs hc buf (-1)
  have hone : (k.host.write oneByte f.file buf.byte (-1)).1 = 1 := by
    unfold Host.write
    rw [hfd]
    rfl
  rw [hone] at hk₁
  rw [writeSocket, bind_of_ok hk₁] at hk'
  rw [show regs k' 2 = 1 from (ret_ok hk').2]
  decide

theorem putString_minus (virtAddr : Int) (k : Kernel κ) :
    ∃ k', putString oneByte (2 ^ 32) virtAddr ⟨0, oneByte.junk⟩ k = .ok (0, k') := ⟨_, rfl⟩

/-- The arguments of `Write` that it is made for, and those that it does refuse. -/
def WriteOk (x : Files) (count id : Int) : Prop :=
  ∀ (i : Fin 20) (f : OpenFile), (i : Int) = id → x.1.openfile i = some f →
    id = 0 ∨ f.type = 1 ∨
      (CountOk count ∧ (id = 1 ∨ ∀ o, x.offset i = some o → o + count ≤ intMax)) ∨
      count = -1 ∧ id ≠ 1 ∧ f.type = 2 ∧ f.isConnect = false

theorem scWrite_live (hx : Files.Ok (files k)) (hi : (i : Int) = regs k 6)
    (hf : k.fileSystem.openfile i = some f) (hopen : ¬(regs k 6 = 0 ∨ f.type = 1)) :
    ∃ p k₁, k₁.fileSystem.openfile i = some { f with currentOffset := p } ∧
      k₁.host = k.host ∧ k₁.machine = k.machine ∧ (files k₁).offset i = (files k).offset i ∧
      (f.type ≠ 2 ∨ f.isConnect = true → Ready k₁.host { f with currentOffset := p }) ∧
      ∀ env, scWrite env k = (user2System env (regs k 4) (regs k 5) >>= fun buf =>
        if regs k 6 = 1 then do
          setOverrun (buf.size = 0)
          ret (← putString env (2 ^ 32) (regs k 4) buf)
        else if f.type = 0 then writeRegular env i p buf (regs k 5)
        else if f.type = 2 ∧ f.isConnect then writeSocket env i buf (regs k 5)
        else ret (-1)) k₁ := by
  obtain ⟨p, k₁, hk₁, hg, hhost, hmachine, hready⟩ := getCurrentPos_total hx hf
  refine ⟨p, k₁, hg, hhost, hmachine, (getCurrentPos_spec hx hk₁).1.offset i, hready, fun env => ?_⟩
  simp only [scWrite, readRegister_bind, byId_live 0 hi (by omega) hf, if_neg hopen,
      bind_of_ok hk₁]

/-- The arguments that `Write` is made for pass, whatever the memory holds. -/
theorem passes_scWrite (hx : Files.Ok (files k)) (hok : WriteOk (files k) (regs k 5) (regs k 6))
    (env : Env) : Passes (BadId (files k) (regs k 6) ∨ regs k 5 < 0) (scWrite env k) := by
  rcases badId_or_live (files k) (regs k 6) with hbad | ⟨i, f, hi, hf⟩
  · simp only [scWrite, readRegister_bind]
    rw [byId_bad le_rfl rfl hbad]
    exact passes_ret
  by_cases hopen : regs k 6 = 0 ∨ f.type = 1
  · simp only [scWrite, readRegister_bind, byId_live 0 hi (by omega) hf, if_pos hopen]
    exact passes_ret
  obtain ⟨p, k₁, hg, hhost, -, hoff, hready, hcall⟩ := scWrite_live hx hi hf hopen
  rw [hcall env]
  rcases hok i f hi hf with h | h | ⟨hcount, hend⟩ | ⟨hminus, hi1, ht, hc⟩
  · exact absurd (.inl h) hopen
  · exact absurd (.inr h) hopen
  · refine passes_of_tame hi hf hcount ?_
    refine stopsOnly_bind (tame_user2System (wrap_count hcount) _) fun buf k₂ hk₂ => ?_
    have hfiles : files k₂ = files k₁ := keeps_files (keeps_user2System _ _ _) _ _ _ hk₂
    have hg₂ := openfile_of_files hfiles hg
    rw [← show k₂.host = k₁.host from congrArg Prod.snd hfiles] at hready
    refine stopsOnly_ite (fun _ => ?_) fun hi1 => stopsOnly_ite (fun ht => ?_) fun _ =>
      stopsOnly_ite (fun ht => ?_) fun _ => stopsOnly_ok _
    · refine stopsOnly_bind (stopsOnly_ok _) fun _ _ _ => ?_
      exact stopsOnly_bind (tame_putString _ _ _ _) fun _ _ _ => stopsOnly_ok _
    · refine tame_writeRegular hcount.1 hg₂ (hx.file hf (by omega)).1 (hready (.inl (by omega))) ?_
      rw [hfiles, hoff]
      exact hend.resolve_left hi1
    · exact tame_writeSocket hg₂ ((hx.derived i f hf).mpr ht.1) ht.2
  · rw [hminus, bind_of_ok (user2System_minus _ _)]
    simpa [hi1, ht, hc] using passes_ret

/-- No other arguments do, where the buffer can be fetched. -/
theorem writeOk_of_passes (hx : Files.Ok (files k))
    (hword : intMin ≤ regs k 5 ∧ regs k 5 ≤ intMax)
    (hfetch : CountOk (regs k 5) → ∀ k₁ : Kernel κ, k₁.machine = k.machine →
      ∃ r, user2System noEnv (regs k 4) (regs k 5) k₁ = .ok r)
    (h : ∀ env, Passes (BadId (files k) (regs k 6) ∨ regs k 5 < 0) (scWrite env k)) :
    WriteOk (files k) (regs k 5) (regs k 6) := by
  intro i f hi hf
  by_cases hopen : regs k 6 = 0 ∨ f.type = 1
  · tauto
  refine .inr (.inr ?_)
  obtain ⟨p, k₁, hg, hhost, hmachine, hoff, hready, hcall⟩ := scWrite_live hx hi hf hopen
  simp only [hcall] at h
  have hfile : f.type ≠ 2 → f.type = 0 := by
    have := hx.typed i f hf
    omega
  rcases count_cases hword with ⟨-, -, halloc⟩ | hminus | ⟨hcount, -⟩
  · exact absurd (h noEnv) (not_passes_badAlloc (bind_of_error (user2System_badAlloc halloc k₁)))
  · refine .inr ⟨hminus, ?_⟩
    simp only [hminus, bind_of_ok (user2System_minus _ _)] at h
    have hneg : BadId (files k) (regs k 6) ∨ (-1 : Int) < 0 := .inr (by decide)
    by_cases hi1 : regs k 6 = 1
    · -- the console shows what stands behind an empty buffer
      simp only [if_pos hi1] at h
      refine absurd (h oneByte) (not_passes_of_result hneg fun k' hk' => ?_)
      obtain ⟨_, k₂, hk₂, hk'⟩ := bind_ok hk'
      obtain ⟨k₃, hk₃⟩ := putString_minus (regs k 4) k₂
      rw [bind_of_ok hk₃] at hk'
      rw [show regs k' 2 = 0 from (ret_ok hk').2]
      decide
    by_cases ht : f.type = 2
    · have hfd : k₁.host.fds f.file = some .socket := by
        rw [hhost]
        exact (hx.backed i f hf).socket ht
      refine ⟨hi1, ht, Bool.eq_false_of_not_eq_true fun hc => ?_⟩
      simp only [hi1, ht, hc, if_false, and_self, if_true, OfNat.ofNat_ne_zero] at h
      exact writeSocket_minus hg ((hx.derived i f hf).mpr ht) hc hfd hneg (h oneByte)
    · simp only [hi1, hfile ht, if_false, if_true] at h
      exact absurd (h oneByte) (writeRegular_minus hg (hx.file hf ht).1 (hready (.inl ht)))
  · refine .inl ⟨hcount, ?_⟩
    by_contra hne
    rw [not_or] at hne
    obtain ⟨hi1, hne⟩ := hne
    push Not at hne
    obtain ⟨o, ho, hpast⟩ := hne
    have ht : f.type ≠ 2 := fun ht => by
      rw [hx.offset_socket hf ht] at ho
      cases ho
    -- the buffer can be fetched, and then the end of the write is past the largest offset
    obtain ⟨⟨buf, k₂⟩, hk₂⟩ := hfetch hcount k₁ hmachine
    have hfiles : files k₂ = files k₁ := keeps_files (keeps_user2System _ _ _) _ _ _ hk₂
    rw [← show k₂.host = k₁.host from congrArg Prod.snd hfiles] at hready
    have hbad := h noEnv
    rw [bind_of_ok hk₂, if_neg hi1, if_pos (hfile ht)] at hbad
    exact writeRegular_past (openfile_of_files hfiles hg) (hx.file hf ht).1 (hready (.inl ht))
      (by rw [hfiles, hoff, ho]) hcount hpast hbad

theorem passes_connected {T : Env → Buffer → Sys κ Unit} {virtAddr count id : Int}
    (hi : (i : Int) = id) (hf : k.fileSystem.openfile i = some f)
    (hword : intMin ≤ count ∧ count ≤ intMax)
    (htame : f.type = 2 ∧ f.isConnect = true → ∀ env buf k₁, files k₁ = files k →
      Tame (T env buf k₁))
    (hminus : f.type = 2 ∧ f.isConnect = true → count = -1 →
      ¬Passes True (T oneByte ⟨0, oneByte.junk⟩ k)) :
    (∀ env, Passes (BadId (files k) id ∨ count < 0) ((do
      let buf ← user2System env virtAddr count
      if f.type = 2 ∧ f.isConnect then T env buf else ret (-1)) k)) ↔
      CountOk count ∨ count = -1 ∧ ¬(f.type = 2 ∧ f.isConnect = true) := by
  refine passes_fetched hi hf hword (fun hcount => ?_) fun _ env buf k₁ hk₁ => ?_
  · by_cases hc : f.type = 2 ∧ f.isConnect = true
    · simp only [if_pos hc]
      refine iff_of_false (fun h => hminus hc hcount ?_) fun h => h hc
      exact ⟨(h oneByte).1, fun _ => (h oneByte).2 (.inr (by omega))⟩
    · simp only [if_neg hc]
      exact iff_of_true (fun _ => passes_ret) hc
  · exact stopsOnly_ite (fun hc => htame hc _ _ _ hk₁) fun _ => stopsOnly_ok _

theorem passes_scSend (hx : Files.Ok (files k)) (hword : intMin ≤ regs k 5 ∧ regs k 5 ≤ intMax) :
    (∀ env, Passes (BadId (files k) (regs k 6) ∨ regs k 5 < 0) (scSend env k)) ↔
      ∀ (i : Fin 20) (f : OpenFile), (i : Int) = regs k 6 → (files k).1.openfile i = some f →
        CountOk (regs k 5) ∨ regs k 5 = -1 ∧ ¬(f.type = 2 ∧ f.isConnect = true) := by
  rcases badId_or_live (files k) (regs k 6) with hbad | ⟨i, f, hi, hf⟩
  · refine iff_of_true (fun env => ?_) fun i f hi hf => by cases (hbad i hi).symm.trans hf
    simp only [scSend, readRegister_bind]
    rw [byId_bad le_rfl rfl hbad]
    exact passes_ret
  rw [live_iff hi hf]
  simp only [scSend, readRegister_bind, byId_live 0 hi (by omega) hf]
  apply passes_connected hi hf hword
  · intro hc env buf k₁ hk₁
    have hf₁ : (files k₁).1.openfile i = some f := hk₁ ▸ hf
    exact tame_writeSocket hf₁ ((hx.derived i f hf).mpr hc.1) hc.2
  · intro hc hminus
    rw [hminus]
    exact writeSocket_minus hf ((hx.derived i f hf).mpr hc.1) hc.2
      ((hx.backed i f hf).socket hc.1) trivial

theorem passes_scReceive (hx : Files.Ok (files k))
    (hword : intMin ≤ regs k 5 ∧ regs k 5 ≤ intMax) :
    (∀ env, Passes (BadId (files k) (regs k 6) ∨ regs k 5 < 0) (scReceive env k)) ↔
      ∀ (i : Fin 20) (f : OpenFile), (i : Int) = regs k 6 → (files k).1.openfile i = some f →
        (i : ℕ) < 2 ∨ CountOk (regs k 5) ∨
          regs k 5 = -1 ∧ ¬(f.type = 2 ∧ f.isConnect = true) := by
  rcases badId_or_live (files k) (regs k 6) with hbad | ⟨i, f, hi, hf⟩
  · refine iff_of_true (fun env => ?_) fun i f hi hf => by cases (hbad i hi).symm.trans hf
    simp only [scReceive, readRegister_bind]
    rw [byId_bad (by decide) rfl hbad]
    exact passes_ret
  rw [live_iff hi hf]
  by_cases hlo : (i : ℕ) < 2
  · refine iff_of_true (fun env => ?_) (.inl hlo)
    simp only [scReceive, readRegister_bind]
    rw [if_pos (.inl (by omega))]
    exact passes_ret
  simp only [hlo, false_or]
  simp only [scReceive, readRegister_bind, byId_live 2 hi (by omega) hf]
  have hready : f.type = 2 ∧ f.isConnect = true → Ready k.host f :=
    fun hc => .inl ⟨(hx.derived i f hf).mpr hc.1, hc.2⟩
  apply passes_connected hi hf hword
  · intro hc env buf k₁ hk₁
    have hf₁ : (files k₁).1.openfile i = some f := hk₁ ▸ hf
    exact tame_readSocket hf₁ (.inl ⟨(hx.derived i f hf).mpr hc.1, hc.2⟩)
  · intro hc hminus
    rw [hminus]
    exact readSocket_minus hf (hready hc) ((hx.backed i f hf).socket hc.1) trivial

/-- The arguments that a file call has to refuse. -/
def Invalid (r : ℕ → Int) (x : Files) : Prop :=
  if r 2 = 10 ∨ r 2 = 51 then BadId x (r 4)
  else if r 2 = 9 then BadSeek x (r 4) (r 5)
  else BadId x (r 6) ∨ r 5 < 0

/-- The arguments that a file call is made for, and those that it does refuse. -/
structure Acceptable (r : ℕ → Int) (x : Files) : Prop where
  seek : r 2 = 9 → 0 ≤ r 5 ∧ ∀ i : Fin 20, (2 : ℕ) ≤ i → (i : Int) = r 5 →
    (x.fileLength i).isSome → -1 ≤ r 4
  read : r 2 = 7 → ∀ (i : Fin 20) (f : OpenFile), (i : Int) = r 6 → x.1.openfile i = some f →
    CountOk (r 5) ∨ r 5 = -1 ∧ i ≠ 0 ∧ Idle x i f
  write : r 2 = 8 → WriteOk x (r 5) (r 6)
  send : r 2 = 52 → ∀ (i : Fin 20) (f : OpenFile), (i : Int) = r 6 → x.1.openfile i = some f →
    CountOk (r 5) ∨ r 5 = -1 ∧ ¬(f.type = 2 ∧ f.isConnect = true)
  receive : r 2 = 53 → ∀ (i : Fin 20) (f : OpenFile), (i : Int) = r 6 → x.1.openfile i = some f →
    (i : ℕ) < 2 ∨ CountOk (r 5) ∨ r 5 = -1 ∧ ¬(f.type = 2 ∧ f.isConnect = true)

def fileCalls : List Int := [7, 8, 9, 10, 51, 52, 53]

def zeroMachine (r : ℕ → Int) (addr : Int) : Machine where
  mainMemory := fun _ => 0
  registers := r
  tlb := none
  pageTable :=
    some (List.replicate (unsigned addr / pageSize + 1) ⟨0, 0, true, false, false, false⟩)
  pageTableSize := unsigned addr / pageSize + 1

theorem readMem_zeroMachine (r : ℕ → Int) (addr : Int) :
    ∃ m', (zeroMachine r addr).readMem addr 1 = .done 0 m' := by
  have hmod : unsigned addr % pageSize < pageSize := Nat.mod_lt _ (by decide)
  have htr := Machine.translate_eq (m := zeroMachine r addr) rfl rfl addr 1 false
  have hal : Machine.misaligned addr 1 = false := by simp [Machine.misaligned]
  have hentry : (List.replicate (unsigned addr / pageSize + 1)
      (⟨0, 0, true, false, false, false⟩ : TranslationEntry))[unsigned addr / pageSize]? =
        some ⟨0, 0, true, false, false, false⟩ := by
    rw [List.getElem?_replicate, if_pos (Nat.lt_succ_self _)]
  have hin : ¬(zeroMachine r addr).pageTableSize ≤ unsigned addr / pageSize :=
    Nat.not_succ_le_self _
  have hend : ((unsigned 0 * pageSize + unsigned addr % pageSize : ℕ) : Int) + 1 ≤ memorySize := by
    have : unsigned 0 = 0 := rfl
    unfold memorySize numPhysPages
    unfold pageSize at *
    omega
  simp only [hal, hin, hentry, if_false, Bool.false_eq_true, Bool.true_eq_false, Bool.and_false,
    show ¬numPhysPages ≤ unsigned 0 by decide, if_pos hend] at htr
  unfold Machine.readMem
  rw [htr]
  exact ⟨_, rfl⟩

theorem user2System_zeroMachine {r : ℕ → Int} {addr count : Int} (hcount : CountOk count)
    (env : Env) (k : Kernel κ) (hk : k.machine = zeroMachine r addr) :
    ∃ b, user2System env addr count k = .ok b := by
  obtain ⟨m', hm'⟩ := readMem_zeroMachine r addr
  have hcopy : ∀ n, ∃ q, copyIn addr 0 n k = .ok q := by
    intro n
    cases n with
    | zero => exact ⟨_, rfl⟩
    | succ n =>
      have hread : readMem addr 1 k = .ok (some 0, { k with machine := m' }) := by
        rw [readMem_eq, hk, hm']
      rw [copyIn, bind_of_ok hread]
      exact ⟨_, rfl⟩
  obtain ⟨q, hq⟩ := hcopy count.toNat
  have hnew : newBuffer (wrap (count + 1)) env.junk k =
      .ok (⟨(wrap (count + 1)).toNat, env.junk⟩, k) := by
    rw [newBuffer, if_neg (not_lt.mpr (wrap_count hcount))]
    rfl
  rw [user2System, bind_of_ok hnew, bind_of_ok hq]
  exact ⟨_, rfl⟩

theorem passes_other_iff {svc : Services κ} (hx : Files.Ok (files k))
    (hword : intMin ≤ regs k 5 ∧ regs k 5 ≤ intMax) (hcall : regs k 2 ∈ fileCalls)
    (hwrite : regs k 2 ≠ 8) :
    (∀ env, Passes (Invalid (regs k) (files k))
      (exceptionHandler svc env .syscallException k)) ↔ Acceptable (regs k) (files k) := by
  change (∀ env, Passes (Invalid (regs k) (files k)) (syscall svc env (regs k 2) k)) ↔ _
  simp only [fileCalls, List.mem_cons, List.not_mem_nil, or_false, hwrite, false_or] at hcall
  rcases hcall with h | h | h | h | h | h <;>
    simp only [Invalid, h, syscall, Int.reduceEq, or_true, true_or, or_self, if_true, if_false]
  · rw [passes_scRead hx hword]
    exact ⟨fun hr => ⟨by omega, fun _ => hr, by omega, by omega, by omega⟩, fun ha => ha.read h⟩
  · have : Nonempty Env := ⟨noEnv⟩
    rw [forall_const, passes_scSeek hx]
    exact ⟨fun hs => ⟨fun _ => hs, by omega, by omega, by omega, by omega⟩, fun ha => ha.seek h⟩
  · exact iff_of_true (fun _ => passes_scClose hx)
      ⟨by omega, by omega, by omega, by omega, by omega⟩
  · exact iff_of_true (fun _ => passes_scConnect) ⟨by omega, by omega, by omega, by omega, by omega⟩
  · rw [passes_scSend hx hword]
    exact ⟨fun hs => ⟨by omega, by omega, by omega, fun _ => hs, by omega⟩, fun ha => ha.send h⟩
  · rw [passes_scReceive hx hword]
    exact ⟨fun hr => ⟨by omega, by omega, by omega, by omega, fun _ => hr⟩, fun ha => ha.receive h⟩

theorem passes_syscall_of {svc : Services κ} (hx : Files.Ok (files k))
    (hword : intMin ≤ regs k 5 ∧ regs k 5 ≤ intMax) (hcall : regs k 2 ∈ fileCalls)
    (ha : Acceptable (regs k) (files k)) (env : Env) :
    Passes (Invalid (regs k) (files k)) (exceptionHandler svc env .syscallException k) := by
  by_cases h : regs k 2 = 8
  · change Passes _ (syscall svc env (regs k 2) k)
    simp only [Invalid, h, syscall, Int.reduceEq, or_self, if_false]
    exact passes_scWrite hx (ha.write h) env
  · exact (passes_other_iff hx hword hcall h).mpr ha env

end Sys

namespace World
variable {κ : Type} {svc : Services κ} {w : World κ}

/-- In every state of every run: a file call with these registers refuses what it has to
refuse, and runs into no fault of its arguments, whatever the memory holds and the host
does, exactly if the arguments are acceptable. -/
theorem file_call_checked_iff {k : Kernel κ} (hk : Started k)
    (hw : Reach (step svc) (fun _ _ => True) (start k) w) {r : ℕ → Int}
    (hword : ∀ n, intMin ≤ r n ∧ r n ≤ intMax) (hcall : r 2 ∈ Sys.fileCalls) :
    (∀ (c : Call) (env : Env), c.machine.registers = r →
      Sys.Passes (Sys.Invalid r w.files)
        (Sys.exceptionHandler svc env .syscallException (c.enter w.kernel))) ↔
      Sys.Acceptable r w.files := by
  have hx : Files.Ok w.files := files_ok hk hw
  constructor
  · intro h
    let c : Call := ⟨Sys.zeroMachine r (r 4), Sys.noEnv, []⟩
    by_cases h8 : r 2 = 8
    · refine ⟨by omega, by omega, fun _ => ?_, by omega, by omega⟩
      refine Sys.writeOk_of_passes (k := c.enter w.kernel) hx (hword 5) (fun hcount k₁ hk₁ =>
        Sys.user2System_zeroMachine hcount Sys.noEnv k₁ hk₁) fun env => ?_
      have hpass : Sys.Passes _ (Sys.syscall svc env (r 2) (c.enter w.kernel)) := h c env rfl
      simp only [Sys.Invalid, h8, Sys.syscall, Int.reduceEq, or_self, if_false] at hpass
      exact hpass
    · exact (Sys.passes_other_iff (k := c.enter w.kernel) hx (hword 5) hcall h8).mp
        fun env => h c env rfl
  · rintro ha c env rfl
    exact Sys.passes_syscall_of (k := c.enter w.kernel) hx (hword 5) hcall ha env

/-- A `Read` from the console with a count of 10 is acceptable, and passes. -/
theorem file_call_checked_console :
    let c := smallCall 7 0 10 0 Sys.noEnv
    Sys.Acceptable c.machine.registers (start smallKernel).files ∧
      Sys.Passes (Sys.Invalid c.machine.registers (start smallKernel).files)
        (Sys.exceptionHandler Sys.zeroServices Sys.noEnv .syscallException
          (c.enter smallKernel)) := by
  intro c
  have hacc : Sys.Acceptable c.machine.registers (start smallKernel).files := by
    constructor
    · exact fun h => absurd h (by decide)
    · exact fun _ i f _ _ => .inl ⟨by decide, by decide⟩
    all_goals exact fun h => absurd h (by decide)
  have hword : ∀ n, intMin ≤ c.machine.registers n ∧ c.machine.registers n ≤ intMax := by
    intro n
    simp only [c, smallCall]
    split_ifs <;> decide
  exact ⟨hacc, (file_call_checked_iff smallKernel_started .refl hword (by decide)).mpr
    hacc c Sys.noEnv rfl⟩

/-- `Seek(0, -1)` looks at what stands in front of the table. -/
theorem seek_negative_id : Sys.exceptionHandler Sys.zeroServices Sys.noEnv .syscallException
    ((smallCall 9 0 (-1) 0 Sys.noEnv).enter smallKernel) = .error (.abort (.index (-1))) := rfl

end World
end Nachos
