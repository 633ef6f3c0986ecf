import Nachos.UserBuffers

namespace Nachos
open TwosComplement Programs Buffers

def Env.readable (env : Env) (data : List UInt8) (o : ℕ) (count : Int) : List UInt8 :=
  (data.drop o).take (min (env.limit.getD 0) (unsigned count))

/-- The `bytes` stand at `addr`, and all others of the space are as before. -/
def Machine.Delivered (m m' : Machine) (addr : ℕ) (bytes : List UInt8) : Prop :=
  (∀ j < bytes.length, m'.virtualByte (addr + j) = bytes.getD j 0) ∧
    ∀ a < m.spaceSize, a < addr ∨ addr + bytes.length ≤ a → m'.virtualByte a = m.virtualByte a

/-- The bytes behind a NUL stand at `addr` already. -/
def Machine.HoldsTail (m : Machine) (addr : ℕ) (bytes : List UInt8) : Prop :=
  ∀ j < bytes.length, BehindNul (fun i => bytes.getD i 0) j →
    m.virtualByte (addr + j) = bytes.getD j 0

theorem Machine.delivered_iff {m m' : Machine} {addr : ℕ} {bytes : List UInt8}
    (hin : addr + bytes.length ≤ m.spaceSize)
    (hcopy : ∀ a < m.spaceSize, m'.virtualByte a =
      copyString (fun j => bytes.getD j 0) m.virtualByte addr bytes.length a) :
    m.Delivered m' addr bytes ↔ m.HoldsTail addr bytes := by
  have hbyte : ∀ j < bytes.length, m'.virtualByte (addr + j) =
      if BehindNul (fun i => bytes.getD i 0) j then m.virtualByte (addr + j)
      else bytes.getD j 0 := by
    intro j hj
    rw [hcopy _ (by omega), copyString, Nat.add_sub_cancel_left]
    by_cases hb : BehindNul (fun i => bytes.getD i 0) j
    · rw [if_neg (fun h => h.2.2 hb), if_pos hb]
    · rw [if_pos ⟨by omega, by omega, hb⟩, if_neg hb]
  constructor
  · rintro ⟨hall, -⟩ j hj hb
    have hj' := hbyte j hj
    rw [if_pos hb] at hj'
    rw [← hj']
    exact hall j hj
  · intro htail
    refine ⟨?_, ?_⟩
    · intro j hj
      rw [hbyte j hj]
      split_ifs with hb
      · exact htail j hj hb
      · rfl
    · intro a ha hout
      rw [hcopy a ha, copyString, if_neg (by omega)]

namespace Sys
variable {κ : Type} {k : Kernel κ} {i : Fin 20} {f : OpenFile} {n o : ℕ} {env : Env}

theorem readRegister_eq (num : ℕ) (k : Kernel κ) : readRegister num k = .ok (regs k num, k) := rfl

theorem read_of_method {count r : Int} {bytes : List UInt8} {f' : OpenFile} {h' : Host}
    (hf : k.fileSystem.openfile i = some f)
    (hr : f.read k.host env count = .ok (r, bytes, f', h')) (buf : Buffer) :
    read env i buf count k = .ok ((r, buf.store bytes), { k with
      fileSystem := k.fileSystem.setFile i (some f')
      host := h'
      overrun := k.overrun || decide (buf.size < bytes.length) }) := by
  have hm : onFile i (fun f h => do
      let r ← f.read h env count
      return ((r.1, r.2.1), r.2.2)) k = .ok ((r, bytes), { k with
        fileSystem := k.fileSystem.setFile i (some f')
        host := h' }) := by
    rw [onFile, hf]
    dsimp only
    rw [hr]
    rfl
  rw [read, bind_of_ok hm]
  rfl

section File
variable (hf : k.fileSystem.openfile i = some f) (hfd : k.host.fds f.file = some (.file n o))
  (ho : (o : Int) ≤ intMax)
include hf hfd ho

theorem getCurrentPos_returns : getCurrentPos i k = .ok ((o : Int),
    { k with fileSystem := k.fileSystem.setFile i (some { f with currentOffset := o }) }) := by
  rw [getCurrentPos, onFile, hf]
  dsimp only
  rw [OpenFile.getCurrentPos_file hfd ho]

/-- `Read` on a file at the offset of the host. -/
theorem read_returns (env : Env) (hs : f.socketH = false) (hcur : f.currentOffset = o)
    (buf : Buffer)
    (count : Int) : ∃ r k',
      read env i buf count k = .ok ((r, buf.store (env.readable (k.host.data n) o count)), k') ∧
      k'.machine = k.machine ∧
      (env.readable (k.host.data n) o count = [] ∧ r ≤ 0 ∨
        r = (env.readable (k.host.data n) o count).length ∧ ∃ f',
          k'.fileSystem.openfile i = some f' ∧ k'.host.fds f'.file =
            some (.file n (o + (env.readable (k.host.data n) o count).length))) := by
  have hmethod : f.read k.host env count =
      .ok ((k.host.read env f.file count).1, (k.host.read env f.file count).2.1,
        { f with currentOffset := wrap (o + (k.host.read env f.file count).1) },
        (k.host.read env f.file count).2.2) := by
    unfold OpenFile.read OpenFile.readAt
    rw [if_neg (by rw [hs]; decide), hcur, OpenFile.lseek_here hfd ho]
    rfl
  cases hl : env.limit with
  | none =>
    have hnil : env.readable (k.host.data n) o count = [] := by simp [Env.readable, hl]
    have hhost : k.host.read env f.file count = (-1, [], k.host) := by
      simp only [Host.read, hfd, hl]
    rw [hhost] at hmethod
    rw [hnil]
    exact ⟨-1, _, read_of_method hf hmethod buf, rfl, .inl ⟨rfl, by decide⟩⟩
  | some limit =>
    have hbytes : env.readable (k.host.data n) o count =
        ((k.host.data n).drop o).take (min limit (unsigned count)) := by
      rw [Env.readable, hl, Option.getD_some]
    have hhost : k.host.read env f.file count =
        (((env.readable (k.host.data n) o count).length : Int),
          env.readable (k.host.data n) o count, k.host.setFd f.file (some
            (.file n (o + (env.readable (k.host.data n) o count).length)))) := by
      simp only [Host.read, hfd, hl, hbytes]
    rw [hhost] at hmethod
    exact ⟨_, _, read_of_method hf hmethod buf, rfl,
      .inr ⟨rfl, _, Function.update_self .., Function.update_self ..⟩⟩

end File

theorem length_readable_le (env : Env) (data : List UInt8) (o : ℕ) {count : Int} (h : 0 ≤ count)
    (hmax : count ≤ intMax) : (env.readable data o count).length ≤ count.toNat ∧
      o + (env.readable data o count).length ≤ max o data.length := by
  have hun : unsigned count = count.toNat := by
    unfold unsigned
    unfold intMax at hmax
    omega
  rw [Env.readable, List.length_take, List.length_drop, hun]
  omega

/-- What comes back from `Read` on a file: the count, and a copy of the bytes up to a NUL. -/
structure ReadBack (k k' : Kernel κ) (addr : Int) (bytes : List UInt8) : Prop where
  count : regs k' 2 = if bytes = [] then -1 else (bytes.length : Int)
  copied : bytes ≠ [] → ∀ a < k.machine.spaceSize, k'.machine.virtualByte a =
    copyString (fun j => bytes.getD j 0) k.machine.virtualByte (unsigned addr) bytes.length a

theorem readRegular_returns (env : Env) {addr count : Int} (buf : Buffer)
    (hf : k.fileSystem.openfile i = some f) (hfd : k.host.fds f.file = some (.file n o))
    (ho : (o : Int) ≤ intMax) (hlen : ((k.host.data n).length : Int) ≤ intMax)
    (hs : f.socketH = false) (hcur : f.currentOffset = o) (hp : k.machine.Paged)
    (h0 : 0 ≤ count) (hin : unsigned addr + count.toNat ≤ k.machine.spaceSize) :
    ∃ k', readRegular env i addr o buf count k = .ok ((), k') ∧
      ReadBack k k' addr (env.readable (k.host.data n) o count) := by
  have hle := hp.spaceSize_le
  unfold memorySize numPhysPages pageSize at hle
  have hbytes := length_readable_le env (k.host.data n) o h0 (by unfold intMax; omega)
  obtain ⟨r, k₁, hread, hmachine, hr⟩ := read_returns hf hfd ho env hs hcur buf count
  rw [readRegular, bind_of_ok hread]
  -- the host reads nothing, or the position moves by as many bytes as it has read
  rcases hr with ⟨hnil, hr⟩ | ⟨rfl, f', hf', hfd'⟩
  · dsimp only
    rw [if_neg (by omega)]
    refine ⟨_, rfl, ?_, fun h => absurd hnil h⟩
    rw [if_pos hnil]
    rfl
  · by_cases hnil : env.readable (k.host.data n) o count = []
    · dsimp only
      rw [hnil, if_neg (by decide)]
      refine ⟨_, rfl, ?_, fun h => absurd rfl h⟩
      rw [if_pos rfl]
      rfl
    · generalize env.readable (k.host.data n) o count = bytes at *
      have hne : 0 < bytes.length := List.length_pos_iff.mpr hnil
      have hmax : ((o + bytes.length : ℕ) : Int) ≤ intMax := by omega
      have hdiff : ((o + bytes.length : ℕ) : Int) - (o : Int) = (bytes.length : ℕ) := by
        push_cast
        omega
      have hspace : unsigned addr + bytes.length ≤ k₁.machine.spaceSize := by
        rw [hmachine]
        omega
      obtain ⟨x, m', -, -, hcopy, hcopied⟩ := system2User_paged (k := { k₁ with
        fileSystem := k₁.fileSystem.setFile i
          (some { f' with currentOffset := (o + bytes.length : ℕ) }) })
        (buf.store bytes) bytes.length (hmachine ▸ hp) hspace
      dsimp only
      rw [if_pos (by omega), bind_of_ok (getCurrentPos_returns hf' hfd' hmax), hdiff,
        bind_of_ok hcopy]
      refine ⟨_, rfl, ?_, fun _ a ha => ?_⟩
      · rw [if_neg hnil]
        rfl
      · have hstore : ∀ j < bytes.length, (buf.store bytes).byte j = bytes.getD j 0 := by
          intro j hj
          simp only [Buffer.store, List.getD_eq_getElem _ _ hj]
        rw [← copyString_src_congr hstore, ← hmachine]
        rw [← hmachine] at ha
        exact hcopied a ha

/-- Slot `i` holds the file `f`, of a class and with a descriptor as its type says. -/
structure OpenAs (k : Kernel κ) (i : Fin 20) (f : OpenFile) : Prop where
  slot : k.fileSystem.openfile i = some f
  derived : f.socketH = true ↔ f.type = 2
  backed : k.host.Backs f

theorem OpenAs.of_ok (hx : Files.Ok (files k)) (hf : k.fileSystem.openfile i = some f) :
    OpenAs k i f := ⟨hf, hx.derived i f hf, hx.backed i f hf⟩

theorem OpenAs.file (h : OpenAs k i f) (ht : f.type ≠ 2) : f.socketH = false ∧ ∃ n o,
    k.host.fds f.file = some (.file n o) ∧ (o : Int) ≤ intMax ∧
      ((k.host.data n).length : Int) ≤ intMax := by
  refine ⟨?_, h.backed.file ht⟩
  by_contra hs
  exact ht (h.derived.mp (by simpa using hs))

section Call
variable (env : Env) (hp : k.machine.Paged) (hopen : OpenAs k i f) (hid : regs k 6 = (i : ℕ))
  (hcount : 1 ≤ regs k 5)
  (hbuf : unsigned (regs k 4) + (regs k 5).toNat ≤ k.machine.spaceSize)
include hp hopen hid hcount hbuf

theorem scRead_returns (hi : (i : ℕ) ≠ 0) (ht : f.type = 0 ∨ f.type = 1) {data : List UInt8}
    (hdata : (files k).contents i = some data) (ho : (files k).offset i = some o) :
    ∃ k', scRead env k = .ok ((), k') ∧
      ReadBack k k' (regs k 4) (env.readable data o (regs k 5)) := by
  obtain ⟨hs, n, o', hfd, hmax, hlen⟩ := hopen.file (by omega)
  cases (Files.offset_eq hopen.slot hfd).symm.trans ho
  cases (Files.contents_eq hopen.slot hfd).symm.trans hdata
  obtain ⟨c, hc⟩ : ∃ c : ℕ, regs k 5 = c := Int.eq_ofNat_of_zero_le (by omega)
  rw [hc, Int.toNat_natCast] at hbuf
  obtain ⟨b, m₁, ⟨himage, -⟩, hcopy, -, -⟩ := user2System_paged (k := { k with
    fileSystem := k.fileSystem.setFile i (some { f with currentOffset := o }) }) env c hp hbuf
  have hlayout : m₁.layout = k.machine.layout := congrArg Prod.fst himage
  rw [scRead, bind_of_ok (readRegister_eq 4 k), bind_of_ok (readRegister_eq 5 k),
    bind_of_ok (readRegister_eq 6 k), if_neg (by omega), bind_of_ok (openfileAt_eq hid.symm),
    hopen.slot, Option.map_some]
  dsimp only
  rw [bind_of_ok (getCurrentPos_returns hopen.slot hfd hmax), hc, bind_of_ok hcopy,
    if_neg (by omega), if_pos ht]
  have hspace : unsigned (regs k 4) + (c : Int).toNat ≤ m₁.spaceSize := by
    rw [Int.toNat_natCast, Machine.spaceSize_of_layout hlayout]
    exact hbuf
  obtain ⟨k', hread, hback⟩ := readRegular_returns env b (k := { k with
    machine := m₁
    fileSystem := k.fileSystem.setFile i (some { f with currentOffset := o }) })
    (Function.update_self ..) hfd hmax hlen hs rfl (hp.of_layout hlayout) (Int.natCast_nonneg c)
    hspace
  refine ⟨k', hread, hback.count, ?_⟩
  intro hne a ha
  rw [← Machine.virtualByte_of_image himage]
  apply hback.copied hne a
  rw [Machine.spaceSize_of_layout hlayout]
  exact ha

/-- `Read` delivers the bytes of the file exactly when those behind a NUL stand in the buffer
already. -/
theorem read_delivers_iff (svc : Services κ) (hcall : regs k 2 = 7) (hi : (i : ℕ) ≠ 0)
    (ht : f.type = 0 ∨ f.type = 1) {data : List UInt8}
    (hdata : (files k).contents i = some data) (ho : (files k).offset i = some o) :
    (∀ u k', exceptionHandler svc env .syscallException k = .ok (u, k') → 0 < regs k' 2 →
        ∃ bytes, bytes <+: data.drop o ∧ (bytes.length : Int) = regs k' 2 ∧
          k.machine.Delivered k'.machine (unsigned (regs k 4)) bytes) ↔
      k.machine.HoldsTail (unsigned (regs k 4)) (env.readable data o (regs k 5)) := by
  obtain ⟨k', hk', hback⟩ := scRead_returns env hp hopen hid hcount hbuf hi ht hdata ho
  have hhandler : exceptionHandler svc env .syscallException k = .ok ((), k') := by
    rw [exceptionHandler, bind_of_ok (readRegister_eq 2 k), if_pos rfl, hcall]
    exact hk'
  have hle := hp.spaceSize_le
  unfold memorySize numPhysPages pageSize at hle
  have hlen := (length_readable_le env data o (by omega) (show regs k 5 ≤ intMax by
    unfold intMax; omega)).1
  have hpre : env.readable data o (regs k 5) <+: data.drop o := List.take_prefix _ _
  generalize env.readable data o (regs k 5) = bytes at *
  -- where nothing is read the call reports an error, and there is nothing to deliver
  by_cases hnil : bytes = []
  · subst hnil
    have htail : k.machine.HoldsTail (unsigned (regs k 4)) [] := by
      intro j hj
      cases hj
    refine iff_of_true ?_ htail
    intro u k'' h hpos
    cases hhandler.symm.trans h
    rw [hback.count, if_pos rfl] at hpos
    omega
  · have hr := hback.count
    rw [if_neg hnil] at hr
    rw [← Machine.delivered_iff (by omega) (hback.copied hnil)]
    constructor
    · intro h
      have hpos : 0 < bytes.length := List.length_pos_iff.mpr hnil
      obtain ⟨bytes', hpre', hlen', hdel⟩ := h () k' hhandler (by omega)
      -- the bytes read are the only ones of that length at this place of the file
      have heq : bytes' = bytes := by
        rw [List.prefix_iff_eq_take.mp hpre', List.prefix_iff_eq_take.mp hpre,
          show bytes'.length = bytes.length by omega]
      exact heq ▸ hdel
    · intro hdel u k'' h hpos
      cases hhandler.symm.trans h
      exact ⟨bytes, hpre, hr.symm, hdel⟩

end Call

/-- How many bytes the host takes: of a socket what it can, of a file all or none, since
`WriteFile` asserts that all were written. -/
def accepted (env : Env) (f : OpenFile) (o : Option ℕ) (count : Int) : ℕ :=
  if f.type = 2 then min (env.limit.getD 0) count.toNat
  else if count ≤ env.limit.getD 0 ∧ o.getD 0 + count ≤ intMax then count.toNat else 0

theorem accepted_le (env : Env) (f : OpenFile) (o : Option ℕ) (count : Int) :
    accepted env f o count ≤ count.toNat := by
  unfold accepted
  split_ifs <;> omega

/-- The `bytes` stand in the file from the old offset on, or have been handed to the socket. -/
def Stored (k k' : Kernel κ) (i : Fin 20) (f : OpenFile) (bytes : List UInt8) : Prop :=
  if f.type = 2 then k'.host.sent = k.host.sent ++ [(f.file, bytes)]
  else ∃ o data, (files k).offset i = some o ∧ (files k').contents i = some data ∧
    (data.drop o).take bytes.length = bytes

def userBytes (k : Kernel κ) (addr n : ℕ) : List UInt8 :=
  (List.range n).map (shift k.machine.virtualByte addr)

theorem take_drop_overwrite (data bytes : List UInt8) (o : ℕ) :
    ((Host.overwrite data o bytes).drop o).take bytes.length = bytes := by
  have hlen : (data.take o ++ List.replicate (o - data.length) (0 : UInt8)).length = o := by
    rw [List.length_append, List.length_take, List.length_replicate]
    omega
  rw [Host.overwrite, List.append_assoc _ bytes, List.drop_append, hlen, Nat.sub_self,
    List.drop_zero, List.drop_eq_nil_of_le hlen.le, List.nil_append, List.take_append_of_le_length
    le_rfl, List.take_length]

theorem write_of_method {count r : Int} {f' : OpenFile} {h' : Host} {buf : Buffer}
    (hf : k.fileSystem.openfile i = some f)
    (hr : f.write k.host env buf.byte count = .ok (r, f', h')) :
    write env i buf count k = .ok (r, { k with
      fileSystem := k.fileSystem.setFile i (some f')
      host := h'
      overrun := k.overrun || decide ((buf.size : Int) < r) }) := by
  have hm : onFile i (fun f h => f.write h env buf.byte count) k = .ok (r, { k with
      fileSystem := k.fileSystem.setFile i (some f')
      host := h' }) := by
    rw [onFile, hf]
    dsimp only
    rw [hr]
  rw [write, bind_of_ok hm]
  rfl

theorem write_method (hfd : k.host.fds f.file = some (.file n o)) (ho : (o : Int) ≤ intMax)
    (hs : f.socketH = false) (hcur : f.currentOffset = o) (env : Env) (byte : Bytes) (count : Int) :
    f.write k.host env byte count =
      if (k.host.write env f.file byte count).1 = count then
        .ok (count, { f with currentOffset := wrap (o + count) },
          (k.host.write env f.file byte count).2)
      else .error (.abort (.writeFile count (k.host.offset f.file))) := by
  unfold OpenFile.write OpenFile.writeAt
  rw [if_neg (by rw [hs]; decide), hcur, OpenFile.lseek_here hfd ho]
  change (f.writeFile k.host env byte count >>= fun h => Except.ok (count, h)) >>= _ = _
  unfold OpenFile.writeFile
  dsimp only
  split_ifs <;> rfl

theorem host_write_file (env : Env) (hfd : k.host.fds f.file = some (.file n o)) (ht : f.type ≠ 2)
    (byte : Bytes) {count : Int} (h0 : 1 ≤ count) (hmax : count ≤ intMax) :
    (accepted env f (some o) count = 0 ∧ (k.host.write env f.file byte count).1 ≠ count) ∨
      accepted env f (some o) count = count.toNat ∧ (o + count.toNat : Int) ≤ intMax ∧
        k.host.write env f.file byte count = (count, { k.host with
          data := Function.update k.host.data n
            (Host.overwrite (k.host.data n) o ((List.range count.toNat).map byte))
          fds := Function.update k.host.fds f.file (some (.file n (o + count.toNat))) }) := by
  have hun : unsigned count = count.toNat := by
    unfold unsigned
    unfold intMax at hmax
    omega
  rw [accepted, if_neg ht, Option.getD_some]
  cases hl : env.limit with
  | none =>
    refine .inl ⟨if_neg (by simp only [Option.getD_none]; omega), ?_⟩
    simp only [Host.write, hfd, hl]
    omega
  | some limit =>
    rw [Option.getD_some]
    simp only [Host.write, hfd, hl, hun]
    -- the host takes no more than its limit, and nothing past the largest offset
    by_cases hacc : count ≤ limit ∧ (o : Int) + count ≤ intMax
    · have hn : min (min limit count.toNat) (intMax.toNat - o) = count.toNat := by
        unfold intMax at hacc ⊢
        omega
      refine .inr ⟨if_pos hacc, by omega, ?_⟩
      rw [hn, if_neg (by omega), if_neg (by omega), Int.toNat_of_nonneg (by omega)]
    · refine .inl ⟨if_neg hacc, ?_⟩
      rw [if_neg (by omega)]
      split_ifs
      · omega
      · omega
      · intro heq
        apply hacc
        unfold intMax at *
        dsimp only at heq
        omega

theorem writeRegular_returns (env : Env) {count : Int} (buf : Buffer)
    (hf : k.fileSystem.openfile i = some f) (hfd : k.host.fds f.file = some (.file n o))
    (ho : (o : Int) ≤ intMax) (hs : f.socketH = false) (ht : f.type ≠ 2)
    (hcur : f.currentOffset = o) (h0 : 1 ≤ count) (hmax : count ≤ intMax) :
    (accepted env f (some o) count = 0 ∧
        ∃ e, writeRegular env i o buf count k = .error e) ∨
      accepted env f (some o) count = count.toNat ∧ ∃ k', writeRegular env i o buf count k =
        .ok ((), k') ∧ regs k' 2 = count ∧ (files k').contents i =
          some (Host.overwrite (k.host.data n) o ((List.range count.toNat).map buf.byte)) := by
  have hmethod := write_method hfd ho hs hcur env buf.byte count
  -- `WriteFile` asserts that the host has taken all bytes
  rcases host_write_file env hfd ht buf.byte h0 hmax with ⟨hnone, hne⟩ | ⟨hall, hend, hw⟩
  · rw [if_neg hne] at hmethod
    have hcall : write env i buf count k =
        .error (.abort (.writeFile count (k.host.offset f.file))) := by
      refine bind_of_error ?_
      rw [onFile, hf]
      dsimp only
      rw [hmethod]
    exact .inl ⟨hnone, _, bind_of_error hcall⟩
  · rw [hw, if_pos rfl] at hmethod
    have hend' : ((o + count.toNat : ℕ) : Int) ≤ intMax := by
      push_cast
      exact hend
    have hpos := getCurrentPos_returns (k := { k with
      fileSystem := k.fileSystem.setFile i (some { f with currentOffset := wrap (o + count) })
      host := { k.host with
        data := Function.update k.host.data n
          (Host.overwrite (k.host.data n) o ((List.range count.toNat).map buf.byte))
        fds := Function.update k.host.fds f.file (some (.file n (o + count.toNat))) }
      overrun := k.overrun || decide ((buf.size : Int) < count) })
      (Function.update_self ..) (Function.update_self ..) hend'
    refine .inr ⟨hall, ?_⟩
    rw [writeRegular, bind_of_ok (write_of_method hf hmethod), if_pos (by omega), bind_of_ok hpos]
    refine ⟨_, rfl, ?_, ?_⟩
    · change ((o + count.toNat : ℕ) : Int) - (o : Int) = count
      push_cast
      omega
    · have hslot := Files.contents_eq (x := (((k.fileSystem.setFile i
        (some { f with currentOffset := wrap (o + count) })).setFile i
          (some { f with currentOffset := (o + count.toNat : ℕ) })), { k.host with
        data := Function.update k.host.data n
          (Host.overwrite (k.host.data n) o ((List.range count.toNat).map buf.byte))
        fds := Function.update k.host.fds f.file (some (.file n (o + count.toNat))) }))
        (Function.update_self ..) (Function.update_self ..)
      refine hslot.trans ?_
      exact congrArg some (Function.update_self ..)

theorem writeSocket_returns (env : Env) {count : Int} (buf : Buffer)
    (hf : k.fileSystem.openfile i = some f) (hfd : k.host.fds f.file = some .socket)
    (hs : f.socketH = true) (ht : f.type = 2) (hconn : f.isConnect = true) (h0 : 1 ≤ count)
    (hmax : count ≤ intMax) : ∃ k', writeSocket env i buf count k = .ok ((), k') ∧
      (accepted env f none count = 0 ∧ regs k' 2 = -1 ∨ 0 < accepted env f none count ∧
        regs k' 2 = accepted env f none count ∧ k'.host.sent = k.host.sent ++
          [(f.file, (List.range (accepted env f none count)).map buf.byte)]) := by
  have hun : unsigned count = count.toNat := by
    unfold unsigned
    unfold intMax at hmax
    omega
  have hmethod : f.write k.host env buf.byte count =
      .ok ((k.host.write env f.file buf.byte count).1,
      f, (k.host.write env f.file buf.byte count).2) := by
    unfold OpenFile.write
    rw [if_pos hs, if_pos hconn]
  have hacc : accepted env f none count = min (env.limit.getD 0) count.toNat := if_pos ht
  rw [writeSocket, bind_of_ok (write_of_method hf hmethod), hacc]
  cases hl : env.limit with
  | none =>
    simp only [Host.write, hfd, hl]
    exact ⟨_, rfl, .inl ⟨by simp, rfl⟩⟩
  | some limit =>
    have hn : min (min limit count.toNat) intMax.toNat = min limit count.toNat := by
      omega
    simp only [Host.write, hfd, hl, hun, hn, Option.getD_some]
    by_cases hz : min limit count.toNat = 0
    · rw [if_neg (by omega)]
      exact ⟨_, rfl, .inl ⟨hz, rfl⟩⟩
    · rw [if_pos (by omega)]
      exact ⟨_, rfl, .inr ⟨by omega, rfl, rfl⟩⟩

/-- The call stores the first `n` of the bytes and returns `n`, or nothing where `n` is 0. -/
def Writes (r : Except Stop (Unit × Kernel κ)) (k : Kernel κ) (i : Fin 20) (f : OpenFile) (n : ℕ)
    (byte : Bytes) : Prop :=
  (n = 0 ∧ ∀ u k', r = .ok (u, k') → regs k' 2 ≤ 0) ∨
    0 < n ∧ ∃ k', r = .ok ((), k') ∧ regs k' 2 = n ∧ ∀ bytes : List UInt8, bytes.length = n →
      (Stored k k' i f bytes ↔ bytes = (List.range n).map byte)

section Transfer
variable {k₁ : Kernel κ} (env : Env) (hopen : OpenAs k i f) (hhost : k₁.host = k.host) {count : Int}
  (buf : Buffer) (h0 : 1 ≤ count) (hmax : count ≤ intMax)
include hopen hhost h0 hmax

theorem writeRegular_writes (ht : f.type = 0) (hfd : k.host.fds f.file = some (.file n o))
    (hf : k₁.fileSystem.openfile i = some { f with currentOffset := o }) :
    Writes (writeRegular env i o buf count k₁) k i f (accepted env f (some o) count) buf.byte := by
  have ht2 : f.type ≠ 2 := by omega
  obtain ⟨hs, n', o', hfd', ho, -⟩ := hopen.file ht2
  cases hfd.symm.trans hfd'
  rw [← hhost] at hfd
  rcases writeRegular_returns env buf hf hfd ho hs ht2 rfl h0 hmax with
    ⟨hnone, e, he⟩ | ⟨hall, k', hk', hr, hcontents⟩
  · refine .inl ⟨hnone, ?_⟩
    intro u k' h
    cases he.symm.trans h
  · have hall' : accepted env f (some o) count = count.toNat := hall
    rw [hall']
    refine .inr ⟨by omega, k', hk', by omega, ?_⟩
    intro bytes hlen
    have hoff : (files k).offset i = some o := Files.offset_eq hopen.slot (hhost ▸ hfd)
    rw [Stored, if_neg ht2]
    constructor
    · rintro ⟨o', data, ho', hdata, htake⟩
      cases hoff.symm.trans ho'
      cases hcontents.symm.trans hdata
      have hmap := take_drop_overwrite (k₁.host.data n) ((List.range count.toNat).map buf.byte) o
      rw [List.length_map, List.length_range] at hmap
      rw [hlen] at htake
      exact htake.symm.trans hmap
    · intro heq
      refine ⟨o, _, hoff, hcontents, ?_⟩
      rw [← heq]
      exact take_drop_overwrite _ _ _

theorem writeSocket_writes (ht : f.type = 2) (hconn : f.isConnect = true) {p : Int}
    (hf : k₁.fileSystem.openfile i = some { f with currentOffset := p }) :
    Writes (writeSocket env i buf count k₁) k i f (accepted env f none count) buf.byte := by
  have hfd := hopen.backed.socket ht
  rw [← hhost] at hfd
  obtain ⟨k', hk', hr⟩ :=
    writeSocket_returns env buf hf hfd (hopen.derived.mpr ht) ht hconn h0 hmax
  rcases hr with ⟨hz, hr⟩ | ⟨hpos, hr, hsent⟩
  · refine .inl ⟨hz, ?_⟩
    intro u k'' h
    cases hk'.symm.trans h
    omega
  · refine .inr ⟨hpos, k', hk', hr, ?_⟩
    intro bytes _
    rw [Stored, if_pos ht, hsent, hhost]
    constructor
    · intro h
      have hpair := List.singleton_inj.mp (List.append_cancel_left h)
      exact (congrArg Prod.snd hpair).symm
    · rintro rfl
      rfl

end Transfer

def CopiedIn (k : Kernel κ) (byte : Bytes) : Prop := ∀ j < (regs k 5).toNat,
  byte j = if BehindNul (shift k.machine.virtualByte (unsigned (regs k 4))) j then 0
    else shift k.machine.virtualByte (unsigned (regs k 4)) j

theorem getCurrentPos_socket (hf : k.fileSystem.openfile i = some f)
    (hfd : k.host.fds f.file = some .socket) : getCurrentPos i k = .ok (-1,
      { k with fileSystem := k.fileSystem.setFile i (some { f with currentOffset := -1 }) }) := by
  rw [getCurrentPos, onFile, hf]
  simp only [OpenFile.getCurrentPos, OpenFile.tell, Host.lseek, hfd]

section Call
variable (env : Env) (hp : k.machine.Paged) (hopen : OpenAs k i f) (hid : regs k 6 = (i : ℕ))
  (hcount : 1 ≤ regs k 5)
  (hbuf : unsigned (regs k 4) + (regs k 5).toNat ≤ k.machine.spaceSize)

omit hid in
include hp hcount hbuf in
theorem user2System_writes {k₁ : Kernel κ} (hm : k₁.machine = k.machine) : ∃ b m',
    user2System env (regs k 4) (regs k 5) k₁ = .ok (b, { k₁ with machine := m' }) ∧
      CopiedIn k b.byte ∧ regs k 5 ≤ intMax := by
  have hle := hp.spaceSize_le
  unfold memorySize numPhysPages pageSize at hle
  have hmax : regs k 5 ≤ intMax := by
    unfold intMax
    omega
  rw [← hm] at hp hbuf
  obtain ⟨b, m', -, hcopy, -, hbytes⟩ := user2System_paged env (regs k 5).toNat hp hbuf
  rw [Int.toNat_of_nonneg (by omega)] at hcopy
  rw [hm] at hbytes
  exact ⟨b, m', hcopy, hbytes, hmax⟩

include hp hopen hid hcount hbuf

theorem scWrite_branch (hi : (2 : ℕ) ≤ i) (ht : f.type ≠ 1) {p : Int}
    (hpos : getCurrentPos i k = .ok (p,
      { k with fileSystem := k.fileSystem.setFile i (some { f with currentOffset := p }) })) :
    ∃ b k₂, CopiedIn k b.byte ∧ regs k 5 ≤ intMax ∧ k₂.host = k.host ∧
      k₂.fileSystem.openfile i = some { f with currentOffset := p } ∧
      scWrite env k = (if f.type = 0 then writeRegular env i p b (regs k 5)
        else if f.type = 2 ∧ f.isConnect then writeSocket env i b (regs k 5) else ret (-1)) k₂ := by
  have hm : ({ k with
      fileSystem := k.fileSystem.setFile i (some { f with currentOffset := p }) } :
      Kernel κ).machine = k.machine := rfl
  obtain ⟨b, m', hcopy, hbytes, hmax⟩ := user2System_writes env hp hcount hbuf hm
  refine ⟨b, { k with
    machine := m'
    fileSystem := k.fileSystem.setFile i (some { f with currentOffset := p }) }, hbytes, hmax, rfl,
    Function.update_self .., ?_⟩
  rw [scWrite, bind_of_ok (readRegister_eq 4 k), bind_of_ok (readRegister_eq 5 k),
    bind_of_ok (readRegister_eq 6 k), if_neg (by omega), bind_of_ok (openfileAt_eq hid.symm),
    hopen.slot, Option.map_some]
  dsimp only
  rw [if_neg (by omega), bind_of_ok hpos, bind_of_ok hcopy, if_neg (by omega)]

theorem scWrite_writes (hi : (2 : ℕ) ≤ i) (hkind : f.type = 0 ∨ f.type = 2 ∧ f.isConnect = true) :
    ∃ byte, CopiedIn k byte ∧ Writes (scWrite env k) k i f
      (accepted env f ((files k).offset i) (regs k 5)) byte := by
  rcases hkind with ht | ⟨ht, hconn⟩
  · obtain ⟨-, n, o, hfd, ho, -⟩ := hopen.file (by omega)
    obtain ⟨b, k₂, hbytes, hmax, hhost, hslot, heq⟩ := scWrite_branch env hp hopen hid hcount hbuf
      hi (by omega) (getCurrentPos_returns hopen.slot hfd ho)
    rw [heq, if_pos ht, Files.offset_eq hopen.slot hfd]
    exact ⟨b.byte, hbytes, writeRegular_writes env hopen hhost b hcount hmax ht hfd hslot⟩
  · have hfd := hopen.backed.socket ht
    obtain ⟨b, k₂, hbytes, hmax, hhost, hslot, heq⟩ := scWrite_branch env hp hopen hid hcount hbuf
      hi (by omega) (getCurrentPos_socket hopen.slot hfd)
    have hoff : (files k).offset i = none := by
      simp only [Files.offset, files, hopen.slot, Option.bind_some, hfd]
    rw [heq, if_neg (by omega), if_pos ⟨ht, hconn⟩, hoff]
    exact ⟨b.byte, hbytes, writeSocket_writes env hopen hhost b hcount hmax ht hconn hslot⟩

theorem scSend_writes (ht : f.type = 2) (hconn : f.isConnect = true) :
    ∃ byte, CopiedIn k byte ∧ Writes (scSend env k) k i f
      (accepted env f ((files k).offset i) (regs k 5)) byte := by
  have hfd := hopen.backed.socket ht
  have hoff : (files k).offset i = none := by
    simp only [Files.offset, files, hopen.slot, Option.bind_some, hfd]
  obtain ⟨b, m', hcopy, hbytes, hmax⟩ := user2System_writes env hp hcount hbuf rfl
  refine ⟨b.byte, hbytes, ?_⟩
  rw [scSend, bind_of_ok (readRegister_eq 4 k), bind_of_ok (readRegister_eq 5 k),
    bind_of_ok (readRegister_eq 6 k), if_neg (by omega), bind_of_ok (openfileAt_eq hid.symm),
    hopen.slot, Option.map_some]
  dsimp only
  rw [bind_of_ok hcopy, if_pos ⟨ht, hconn⟩, hoff]
  have hhost : ({ k with machine := m' } : Kernel κ).host = k.host := rfl
  exact writeSocket_writes env hopen hhost b hcount hmax ht hconn hopen.slot

/-- `Write` and `Send` store the bytes of the user's buffer exactly when those behind a NUL are
zeros. -/
theorem write_stores_iff (svc : Services κ)
    (hcall : regs k 2 = 8 ∧ (2 : ℕ) ≤ i ∧ (f.type = 0 ∨ f.type = 2 ∧ f.isConnect = true) ∨
      regs k 2 = 52 ∧ f.type = 2 ∧ f.isConnect = true) :
    (∀ u k', exceptionHandler svc env .syscallException k = .ok (u, k') → 0 < regs k' 2 →
        Stored k k' i f (userBytes k (unsigned (regs k 4)) (regs k' 2).toNat)) ↔
      ∀ j < accepted env f ((files k).offset i) (regs k 5),
        BehindNul (shift k.machine.virtualByte (unsigned (regs k 4))) j →
          k.machine.virtualByte (unsigned (regs k 4) + j) = 0 := by
  -- both calls store what `User2System` has copied, which is zero behind a NUL
  have hwrites : ∃ byte, CopiedIn k byte ∧
      Writes (exceptionHandler svc env .syscallException k) k i f
      (accepted env f ((files k).offset i) (regs k 5)) byte := by
    rw [exceptionHandler, bind_of_ok (readRegister_eq 2 k), if_pos rfl]
    rcases hcall with ⟨hr, hi, hkind⟩ | ⟨hr, ht, hconn⟩
    · rw [hr]
      exact scWrite_writes env hp hopen hid hcount hbuf hi hkind
    · rw [hr]
      exact scSend_writes env hp hopen hid hcount hbuf ht hconn
  obtain ⟨byte, hbyte, hw⟩ := hwrites
  have hle := accepted_le env f ((files k).offset i) (regs k 5)
  generalize accepted env f ((files k).offset i) (regs k 5) = n at *
  -- a call that stores nothing returns no positive count, and one that does returns `n`
  rcases hw with ⟨rfl, hzero⟩ | ⟨hpos, k', hk', hr, hstored⟩
  · refine iff_of_true ?_ (by omega)
    intro u k' h hr
    have := hzero u k' h
    omega
  · have hn : (regs k' 2).toNat = n := by omega
    have hbytes := hstored (userBytes k (unsigned (regs k 4)) n)
      (by rw [userBytes, List.length_map, List.length_range])
    have hsame : userBytes k (unsigned (regs k 4)) n = (List.range n).map byte ↔
        ∀ j < n, BehindNul (shift k.machine.virtualByte (unsigned (regs k 4))) j →
          k.machine.virtualByte (unsigned (regs k 4) + j) = 0 := by
      rw [userBytes, List.map_inj_left]
      constructor
      · intro h j hj hb
        have hj' := h j (List.mem_range.mpr hj)
        rw [hbyte j (by omega), if_pos hb] at hj'
        exact hj'
      · intro h j hj
        rw [List.mem_range] at hj
        rw [hbyte j (by omega)]
        split_ifs with hb
        · exact h j hj hb
        · rfl
    rw [← hsame, ← hbytes]
    constructor
    · intro h
      have hk := h () k' hk' (by omega)
      rw [hn] at hk
      exact hk
    · intro h u k'' hk'' _
      cases hk'.symm.trans hk''
      rw [hn]
      exact h

end Call

def oneFile (f : OpenFile) (d : Descriptor) (data : List UInt8) (memory : List UInt8)
    (number r4 r5 r6 : Int) : Kernel Unit where
  machine :=
    { mainMemory := fun a => memory.getD a.toNat 0
      registers := fun i => if i = 2 then number else if i = 4 then r4 else if i = 5 then r5
        else if i = 6 then r6 else 0
      tlb := none
      pageTable := some [⟨0, 0, true, false, false, false⟩]
      pageTableSize := 1 }
  fileSystem := ⟨fun i => if i.val = 2 then some f else none, fun _ => []⟩
  host :=
    { dir := fun _ => none
      data := fun _ => data
      fds := fun fd => if fd = f.file then some d else none
      nextInode := 1 }
  input := []
  console := []
  overrun := false
  tables := ()

def hundred : Env := { noEnv with limit := some 100 }

section OneFile
variable {f : OpenFile} {d : Descriptor} {data memory : List UInt8} {number r4 r5 r6 : Int}

theorem paged_oneFile : (oneFile f d data memory number r4 r5 r6).machine.Paged := by
  have hframes : (oneFile f d data memory number r4 r5 r6).machine.frames = [0] := rfl
  refine ⟨rfl, ⟨_, rfl, rfl, by decide⟩, ?_, ?_⟩
  · rw [hframes]
    decide
  · rw [hframes]
    decide

theorem openAs_oneFile (h : (data.length : Int) ≤ intMax) :
    OpenAs (oneFile (.ofMode 5 0) (.file 0 0) data memory number r4 r5 r6) 2 (.ofMode 5 0) :=
  ⟨rfl, by decide, by decide, by decide, h⟩

end OneFile

def readThree (data : List UInt8) : Kernel Unit :=
  oneFile (.ofMode 5 0) (.file 0 0) data [] 7 64 3 2

theorem read_delivers_text : regs (readThree [65, 66, 67]) 2 = 7 ∧
    ∀ u k', exceptionHandler zeroServices hundred .syscallException (readThree [65, 66, 67]) =
        .ok (u, k') → 0 < regs k' 2 → ∃ bytes, bytes <+: [65, 66, 67].drop 0 ∧
          (bytes.length : Int) = regs k' 2 ∧
          (readThree [65, 66, 67]).machine.Delivered k'.machine 64 bytes := by
  refine ⟨rfl, ?_⟩
  have htail : (readThree [65, 66, 67]).machine.HoldsTail 64 [65, 66, 67] := by
    unfold Machine.HoldsTail
    decide
  exact (read_delivers_iff hundred paged_oneFile (openAs_oneFile (by decide)) rfl (by decide)
    (by decide) zeroServices rfl (by decide) (.inl rfl) rfl rfl).mpr htail

/-- Of the bytes 65, 0, 66 the third one is counted and not delivered. -/
theorem read_stops_at_nul : ¬∀ u k',
    exceptionHandler zeroServices hundred .syscallException (readThree [65, 0, 66]) =
        .ok (u, k') → 0 < regs k' 2 → ∃ bytes, bytes <+: [65, 0, 66].drop 0 ∧
          (bytes.length : Int) = regs k' 2 ∧
          (readThree [65, 0, 66]).machine.Delivered k'.machine 64 bytes := by
  intro h
  have heval : ((exceptionHandler zeroServices hundred .syscallException
      (readThree [65, 0, 66])).toOption.map fun r => (regs r.2 2, r.2.machine.virtualByte 66)) =
      some (3, 0) := by
    decide +kernel
  obtain ⟨⟨u, k'⟩, hk', hr⟩ := Option.map_eq_some_iff.mp heval
  obtain ⟨hr2, hbyte⟩ := Prod.mk.inj hr
  have hr2 : regs k' 2 = 3 := hr2
  obtain ⟨bytes, hpre, hlen, hdel, -⟩ := h u k' (eq_ok_of_toOption hk') (by omega)
  have hlen3 : bytes.length = 3 := by omega
  obtain rfl : bytes = [65, 0, 66] := hpre.eq_of_length hlen3
  have h66 := hdel 2 (by decide)
  rw [hbyte] at h66
  cases h66

def writeThree (memory : List UInt8) : Kernel Unit :=
  oneFile (.ofMode 5 0) (.file 0 0) [] memory 8 0 3 2

theorem write_stores_text : regs (writeThree [65, 66, 67]) 2 = 8 ∧
    ∀ u k', exceptionHandler zeroServices hundred .syscallException (writeThree [65, 66, 67]) =
        .ok (u, k') → 0 < regs k' 2 → Stored (writeThree [65, 66, 67]) k' 2 (.ofMode 5 0)
          (userBytes (writeThree [65, 66, 67]) 0 (regs k' 2).toNat) :=
  ⟨rfl, (write_stores_iff hundred paged_oneFile (openAs_oneFile (by decide)) rfl (by decide)
    (by decide) zeroServices (.inl ⟨rfl, by decide, .inl rfl⟩)).mpr (by decide)⟩

/-- Of the bytes 65, 0, 66 the third one is written as a zero. -/
theorem write_zeroes_behind_nul : ¬∀ u k',
    exceptionHandler zeroServices hundred .syscallException (writeThree [65, 0, 66]) =
        .ok (u, k') → 0 < regs k' 2 → Stored (writeThree [65, 0, 66]) k' 2 (.ofMode 5 0)
          (userBytes (writeThree [65, 0, 66]) 0 (regs k' 2).toNat) := by
  intro h
  have heval : ((exceptionHandler zeroServices hundred .syscallException
      (writeThree [65, 0, 66])).toOption.map fun r => (regs r.2 2, (files r.2).contents 2)) =
      some (3, some [65, 0, 0]) := by
    decide +kernel
  obtain ⟨⟨u, k'⟩, hk', hr⟩ := Option.map_eq_some_iff.mp heval
  obtain ⟨hr2, hcontents⟩ := Prod.mk.inj hr
  have hr2 : regs k' 2 = 3 := hr2
  have hstored := h u k' (eq_ok_of_toOption hk') (by omega)
  rw [Stored, if_neg (by decide), hr2] at hstored
  obtain ⟨o, data, ho, hdata, htake⟩ := hstored
  cases hcontents.symm.trans hdata
  cases (show (files (writeThree [65, 0, 66])).offset 2 = some 0 from rfl).symm.trans ho
  revert htake
  decide

end Sys
end Nachos
