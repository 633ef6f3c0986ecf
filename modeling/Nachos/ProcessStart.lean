import Nachos.ExecCalls
import Nachos.FrameOwnership
import Nachos.Scheduler

namespace Nachos
open TwosComplement Programs

/-- What the other threads make of the kernel while one waits; the machine has been built
without a TLB. -/
structure Others where
  act : Kernel Tables → Kernel Tables
  noTlb : ∀ k, k.machine.tlb = none → (act k).machine.tlb = none

/-- What is left open about a start: the fields of the object that `new` returned, what
the host decides, and what the others do around the critical section.  The thread gives up the
processor only in `addrLock->P()` and `addrLock->V()`. -/
structure Chance where
  raw : AddrSpace
  env : Env
  atP : Others
  atV : Others

def Host.contents (h : Host) (fd : ℕ) : List UInt8 :=
  match h.fds fd with
  | some (.file i _) => h.data i
  | _ => []

def AddrSpace.initRegisters (space : AddrSpace) (m : Machine) : Machine :=
  { m with registers := (Scheduler.Space.mk none space.numPages).initRegisters m.registers }

def PTable.State.getFileName (s : PTable.State) (id : Int) : Option Name :=
  (s.pcb id).bind fun a => (s.live a).map PTable.PCB.filename

namespace Sys

def phys (k : Kernel Tables) : Phys := ⟨k.tables.gPhysPageBitMap, k.machine.mainMemory⟩

def setPhys (p : Phys) : Sys Tables Unit := modify fun k =>
  { k with
    machine := { k.machine with mainMemory := p.mainMemory }
    tables := { k.tables with gPhysPageBitMap := p.gPhysPageBitMap } }

def deleteFile (executable : OpenFile) : Sys Tables Unit := do
  setHost (← executable.delete (← get).host)

/-- The constructor of an address space from `addrLock->P()` on. -/
def fillSpace (d : Chance) (executable : OpenFile) (header : NoffHeader) :
    Sys Tables AddrSpace := do
  modify d.atP.act
  let k ← get
  match d.raw.fill (phys k) (k.host.contents executable.file) header with
  | none => throw (.abort .addrSpace)
  | some (space, p) =>
    setPhys p
    -- where the frames do not suffice, the file is closed before the lock is given back
    if header.numPages > k.tables.gPhysPageBitMap.numClear then
      deleteFile executable
      modify d.atV.act
    else
      modify d.atV.act
      deleteFile executable
    return space

/-- `AddrSpace(char *fileName)`. -/
def newAddrSpace (d : Chance) (fileName : Name) : Sys Tables AddrSpace := do
  match FileSystem.openAny (← get).host d.env fileName (d.env.junk 0).toNat with
  -- a message, and then `ReadAt` through the null pointer
  | (none, _) => throw (.abort .nullPointer)
  | (some executable, h) =>
    setHost h
    let header := readHeader (h.contents executable.file) d.env.junk
    if header.noffMagic ≠ NOFFMAGIC then throw (.abort .addrSpace)
    else fillSpace d executable header

/-- `AddrSpace::Execute` up to `Machine::Run`. -/
def execute (space : AddrSpace) : Sys Tables Unit := modify fun k =>
  { k with machine := space.restoreState (space.initRegisters k.machine) }

def getFileName (id : Int) : Sys Tables Name := fun k =>
  match k.tables.pTab.getFileName id with
  | none => .error (.abort .nullPointer)
  | some name => .ok (name, k)

def startProcess1 (d : Chance) (pid : Int) : Sys Tables Unit := do
  let fileName ← getFileName pid
  let space ← newAddrSpace d fileName
  execute space

def startProcess2 (d : Chance) (argv : List Name) : Sys Tables Unit :=
  match argv with
  | [] => throw (.abort .nullPointer)
  | fileName :: _ => do
    let space ← newAddrSpace d fileName
    execute space

/-- Thread `t` from its first statement to the point where its program is about to run. -/
def start (d : Chance) (t : PTable.Addr) : Sys Tables Unit := do
  let x := (← get).tables
  match x.pTab.thr t with
  | some ⟨pid, _, .start .startProcess1, _⟩ => startProcess1 d pid
  | some ⟨_, _, .start .startProcess2, _⟩ => startProcess2 d (x.argv t)
  | _ => throw .away

def fetch : Sys Tables (Option Int) := do
  readMem (← readRegister pcReg) 4

variable {d : Chance} {k k' : Kernel Tables} {name : Name} {α β : Type}

/-- The constructor cannot succeed for the program `name`: the file is gone, it is no NOFF
file, it needs more frames than there are, or more than are clear. -/
inductive CannotConstruct (d : Chance) (k : Kernel Tables) (name : Name) : Prop
  | gone (h : (k.host.openRW d.env name).1 = none)
  | badMagic {fd : ℕ} {h : Host} (hopen : k.host.openRW d.env name = (some fd, h))
      (hmagic : (readHeader (h.contents fd) d.env.junk).noffMagic ≠ NOFFMAGIC)
  | tooBig {fd : ℕ} {h : Host} (hopen : k.host.openRW d.env name = (some fd, h))
      (hbig : (readHeader (h.contents fd) d.env.junk).numPages > numPhysPages)
  | noRoom {fd : ℕ} {h : Host} (hopen : k.host.openRW d.env name = (some fd, h))
      (hroom : (readHeader (h.contents fd) d.env.junk).numPages >
        (d.atP.act { k with host := h }).tables.gPhysPageBitMap.numClear)

/-- The kernel has aborted, or `Interrupt::Halt` has been called. -/
def StopsKernel (r : Except Stop α) : Prop :=
  (∃ f, r = .error (.abort f)) ∨ ∃ e, r = .error (.halt e)

theorem stopsKernel_bind {f : Sys Tables α} {g : α → Sys Tables β} (h : StopsKernel (f k)) :
    StopsKernel ((f >>= g) k) := by
  rcases h with ⟨e, he⟩ | ⟨e, he⟩
  · exact .inl ⟨e, bind_of_error he⟩
  · exact .inr ⟨e, bind_of_error he⟩

theorem stopsKernel_after {f : Sys Tables α} {g : α → Sys Tables β} {a : α}
    (hf : f k = .ok (a, k')) (h : StopsKernel (g a k')) : StopsKernel ((f >>= g) k) := by
  rw [bind_of_ok hf]
  exact h

theorem deleteFile_cases (executable : OpenFile) (k : Kernel Tables) :
    StopsKernel (deleteFile executable k) ∨
      ∃ h, deleteFile executable k = .ok ((), { k with host := h }) := by
  have hdelete : deleteFile executable k =
      (do setHost (← executable.delete k.host) : Sys Tables Unit) k := rfl
  rw [hdelete, OpenFile.delete]
  split_ifs
  · exact .inl (.inl ⟨.close, rfl⟩)
  · exact .inr ⟨_, rfl⟩

theorem fetch_stops {space : AddrSpace} (hpages : space.numPages = 0)
    (htlb : k.machine.tlb = none) : StopsKernel ((execute space >>= fun _ => fetch) k) := by
  set m := space.restoreState (space.initRegisters k.machine) with hm
  have hfetch : (execute space >>= fun _ => fetch) k = readMem 0 4 { k with machine := m } := rfl
  have htlb' : m.tlb = none := htlb
  have hsize : m.pageTableSize = 0 := hpages
  rw [hfetch, readMem_eq, Machine.readMem]
  cases ht : m.pageTable with
  | none =>
    have habort : m.translate 0 4 false = .abort := by
      simp [Machine.translate, Machine.misaligned, htlb', ht]
    exact .inl ⟨.translate, by simp only [habort]⟩
  | some t =>
    have hraised : m.translate 0 4 false = .raised .addressErrorException m := by
      rw [Machine.translate_eq htlb' ht, hsize]
      simp [Machine.misaligned]
    exact .inr ⟨.addressErrorException, by simp only [hraised]⟩

theorem fillSpace_stops {executable : OpenFile} {header : NoffHeader}
    (htlb : k.machine.tlb = none)
    (h : header.numPages > numPhysPages ∨
      header.numPages > (d.atP.act k).tables.gPhysPageBitMap.numClear) :
    StopsKernel ((do
      let space ← fillSpace d executable header
      execute space
      fetch : Sys Tables (Option Int)) k) := by
  have htlb' := d.atP.noTlb k htlb
  rw [fillSpace]
  simp only [bind_assoc]
  have hwait : (modify d.atP.act : Sys Tables Unit) k = .ok ((), d.atP.act k) := rfl
  have hget : (get : Sys Tables (Kernel Tables)) (d.atP.act k) = .ok (d.atP.act k, d.atP.act k) :=
    rfl
  refine stopsKernel_after hwait (stopsKernel_after hget ?_)
  by_cases hbig : header.numPages > numPhysPages
  · have hfill : d.raw.fill (phys (d.atP.act k)) ((d.atP.act k).host.contents executable.file)
        header = none := if_pos hbig
    rw [hfill]
    exact .inl ⟨.addrSpace, rfl⟩
  · have hroom := h.resolve_left hbig
    have hfill : d.raw.fill (phys (d.atP.act k)) ((d.atP.act k).host.contents executable.file)
        header = some ({ d.raw with numPages := 0 }, phys (d.atP.act k)) :=
      (if_neg hbig).trans (if_pos hroom)
    rw [hfill]
    dsimp only
    rw [if_pos hroom]
    simp only [bind_assoc, pure_bind]
    refine stopsKernel_after (a := ()) rfl ?_
    rcases deleteFile_cases executable _ with hstop | ⟨h', hdelete⟩
    · exact stopsKernel_bind hstop
    · refine stopsKernel_after hdelete (stopsKernel_after (a := ()) rfl ?_)
      exact fetch_stops rfl (d.atV.noTlb _ htlb')

theorem newAddrSpace_closed (h : (k.host.openRW d.env name).1 = none) :
    StopsKernel (newAddrSpace d name k) := by
  have hany : FileSystem.openAny k.host d.env name (d.env.junk 0).toNat =
      (none, (k.host.openRW d.env name).2) := by
    rw [FileSystem.openAny, h]
    rfl
  rw [newAddrSpace]
  refine stopsKernel_after (a := k) rfl ?_
  rw [hany]
  exact .inl ⟨.nullPointer, rfl⟩

theorem newAddrSpace_opened {fd : ℕ} {h : Host}
    (hopen : k.host.openRW d.env name = (some fd, h)) :
    newAddrSpace d name k =
      (if (readHeader (h.contents fd) d.env.junk).noffMagic ≠ NOFFMAGIC then
        throw (.abort .addrSpace)
      else fillSpace d (.ofFile fd (d.env.junk 0).toNat)
        (readHeader (h.contents fd) d.env.junk) : Sys Tables AddrSpace) { k with host := h } := by
  have hany : FileSystem.openAny k.host d.env name (d.env.junk 0).toNat =
      (some (.ofFile fd (d.env.junk 0).toNat), h) := by
    rw [FileSystem.openAny, hopen]
    rfl
  rw [newAddrSpace]
  refine (bind_of_ok (a := k) rfl).trans ?_
  rw [hany]
  have hset : setHost h k = .ok ((), { k with host := h }) := rfl
  exact bind_of_ok hset

theorem newAddrSpace_stops (htlb : k.machine.tlb = none) (h : CannotConstruct d k name) :
    StopsKernel ((do
      let space ← newAddrSpace d name
      execute space
      fetch : Sys Tables (Option Int)) k) := by
  have hopened : ∀ {fd h}, k.host.openRW d.env name = (some fd, h) →
      (readHeader (h.contents fd) d.env.junk).noffMagic ≠ NOFFMAGIC ∨
      (readHeader (h.contents fd) d.env.junk).numPages > numPhysPages ∨
        (readHeader (h.contents fd) d.env.junk).numPages >
          (d.atP.act { k with host := h }).tables.gPhysPageBitMap.numClear →
      StopsKernel ((newAddrSpace d name >>= fun space => execute space >>= fun _ => fetch) k) := by
    intro fd h hopen hfail
    rw [bind_of_eq (newAddrSpace_opened hopen)]
    split_ifs with hmagic
    · exact .inl ⟨.addrSpace, rfl⟩
    · exact fillSpace_stops htlb (hfail.resolve_left hmagic)
  cases h with
  | gone h => exact stopsKernel_bind (newAddrSpace_closed h)
  | badMagic hopen hmagic => exact hopened hopen (.inl hmagic)
  | tooBig hopen hbig => exact hopened hopen (.inr (.inl hbig))
  | noRoom hopen hroom => exact hopened hopen (.inr (.inr hroom))

/-- Thread `t` is ready to run `StartProcess_1` for the program `name`. -/
def Pending (s : PTable.State) (t : PTable.Addr) (name : Name) : Prop :=
  ∃ θ, s.thr t = some θ ∧ θ.pc = .start .startProcess1 ∧ s.getFileName θ.processID = some name

theorem start_stops {t : PTable.Addr} (hp : Pending k.tables.pTab t name)
    (htlb : k.machine.tlb = none) (h : CannotConstruct d k name) :
    StopsKernel ((start d t >>= fun _ => fetch) k) := by
  obtain ⟨⟨pid, θname, pc, r2⟩, ht, hpc, hname⟩ := hp
  dsimp only at hpc hname
  subst hpc
  have hstart : start d t k = startProcess1 d pid k := by
    rw [start]
    refine (bind_of_ok (a := k) rfl).trans ?_
    simp only [ht]
  have hget : getFileName pid k = .ok (name, k) := by rw [getFileName, hname]
  rw [bind_of_eq hstart, startProcess1]
  simp only [bind_assoc]
  exact stopsKernel_after hget (newAddrSpace_stops htlb h)

def besides (k : Kernel Tables) : FileSystem × Host × List UInt8 × List UInt8 × Bool × Tables :=
  (k.fileSystem, k.host, k.input, k.console, k.overrun, k.tables)

theorem eq_of_besides (h : besides k' = besides k) : k' = { k with machine := k'.machine } := by
  cases k
  cases k'
  cases h
  rfl

theorem keeps_besides_readMem (addr size : Int) :
    Keeps besides (readMem addr size : Sys Tables (Option Int)) :=
  readMem_keeps (fun _ _ => rfl) addr size

theorem keeps_besides_user2System (env : Env) (virtAddr limit : Int) :
    Keeps besides (user2System env virtAddr limit : Sys Tables Buffer) :=
  user2System_keeps keeps_besides_readMem env virtAddr limit

theorem keeps_besides_readArgs (env : Env) (addr : Int) (n : ℕ) :
    Keeps besides (readArgs env addr n : Sys Tables (List Name)) := by
  induction n generalizing addr with
  | zero => exact keeps_pure _
  | succ n ih =>
    refine keeps_bind (keeps_besides_readMem _ _) fun v => ?_
    refine keeps_bind (keeps_besides_user2System _ _ _) fun arg => ?_
    exact keeps_bind (ih _) fun _ => keeps_pure _

/-- `Exec` of the string at `addr`, which is `name`, has come back in `k₁` with a pid. -/
structure Accepts (others : Services Tables) (env : Env) (t : PTable.Addr) (k : Kernel Tables)
    (addr : Int) (name : Name) (k₁ : Kernel Tables) : Prop where
  reads : ∃ b k', user2System env addr 33 (calling k 2 addr (regs k 5)) = .ok (b, k') ∧
    b.str = name
  returns : execOutcome others env t k addr = .ok ((), k₁)
  nonneg : 0 ≤ regs k₁ 2

/-- In `k₂` the process in thread `a` is still as it was in `k₁`. -/
structure Waits (k₁ k₂ : Kernel Tables) (a : PTable.Addr) : Prop where
  thr : k₂.tables.pTab.thr a = k₁.tables.pTab.thr a
  fileName : ∀ θ, k₁.tables.pTab.thr a = some θ →
    k₂.tables.pTab.getFileName θ.processID = k₁.tables.pTab.getFileName θ.processID

theorem pending_of_created {s s' : PTable.State} {θ : PTable.Thread}
    (h : s.Created θ (.execUpdate (some name)) s') : Pending s' s.next name := by
  refine ⟨_, h.thr, rfl, ?_⟩
  simp [PTable.State.getFileName, PTable.State.live, h.pcb, h.heap, PTable.State.newPCB,
    PTable.ExecCall.filename]

section Exec
variable {others : Services Tables} {env : Env} {t : PTable.Addr} {θ : PTable.Thread}
  {addr : Int} {k₁ k₂ : Kernel Tables}

theorem Accepts.pending (h : Accepts others env t k addr name k₁)
    (ht : k.tables.pTab.thr t = some θ) (hne : t ≠ k.tables.pTab.next) :
    Pending k₁.tables.pTab k.tables.pTab.next name := by
  obtain ⟨b, k', hread, rfl⟩ := h.reads
  rw [eq_of_besides (keeps_besides_user2System _ _ _ _ _ _ hread)] at hread
  by_cases hfree : k.tables.pTab.Full ∨ ¬((k.host.openRW env b.str).1.isSome ∧ b.str ≠ θ.name)
  · obtain ⟨x, ⟨k₁', hk₁', hr2, -⟩, -⟩ := execOutcome_refused others env hread ht hfree
    cases hk₁'.symm.trans h.returns
    have := h.nonneg
    omega
  · obtain ⟨hfree, hstarts⟩ := not_or.mp hfree
    obtain ⟨hopen, hown⟩ := not_not.mp hstarts
    obtain ⟨x, ⟨k₁', hk₁', -, rfl⟩, hcreated⟩ :=
      execOutcome_created others env hread ht hne hfree hopen hown
    cases hk₁'.symm.trans h.returns
    exact pending_of_created hcreated

theorem Waits.pending {a : PTable.Addr} (h : Waits k₁ k₂ a)
    (hp : Pending k₁.tables.pTab a name) : Pending k₂.tables.pTab a name := by
  obtain ⟨θ, ht, hpc, hname⟩ := hp
  exact ⟨θ, h.thr.trans ht, hpc, (h.fileName θ ht).trans hname⟩

/-- Whenever the address space of a process that `Exec` has accepted cannot be constructed,
its start aborts the kernel or ends in `Halt`. -/
theorem failed_start_stops_kernel (ht : k.tables.pTab.thr t = some θ)
    (hne : t ≠ k.tables.pTab.next) (hexec : Accepts others env t k addr name k₁)
    (hwaits : Waits k₁ k₂ k.tables.pTab.next) (htlb : k₂.machine.tlb = none)
    (hfail : CannotConstruct d k₂ name) :
    StopsKernel ((start d k.tables.pTab.next >>= fun _ => fetch) k₂) :=
  start_stops (hwaits.pending (hexec.pending ht hne)) htlb hfail

end Exec

def idle : Others := ⟨id, fun _ h => h⟩

def plainStart : Chance := ⟨⟨none, 0⟩, World.grant 6, idle, idle⟩

def stopOf : Except Stop α → Option Stop
  | .error e => some e
  | .ok _ => none

theorem eq_error_of_stopOf {r : Except Stop α} {e : Stop} (h : stopOf r = some e) :
    r = .error e := by
  cases r with
  | error e' =>
    cases h
    rfl
  | ok a => cases h

def execFourBytes : Except Stop (Unit × Kernel Tables) :=
  execOutcome otherServices (World.grant 5) 0 (mainKernel World.smallHost) 0

theorem failed_start_stops_kernel_four_bytes : ∃ k₁, execFourBytes = .ok ((), k₁) ∧
    regs k₁ 2 = 1 ∧ StopsKernel ((start plainStart 1 >>= fun _ => fetch) k₁) := by
  have hrun : (execFourBytes.toOption.map fun r => (regs r.2 2, r.2.machine.tlb.isNone,
      (r.2.host.openRW (World.grant 6) [97]).1,
      (readHeader ((r.2.host.openRW (World.grant 6) [97]).2.contents 6) fun _ => 0).noffMagic)) =
      some (1, true, some 6, 0x4030201) := by
    decide +kernel
  obtain ⟨⟨⟨⟩, k₁⟩, hk₁, hfacts⟩ := Option.map_eq_some_iff.mp hrun
  simp only [Prod.mk.injEq, Option.isNone_iff_eq_none] at hfacts
  obtain ⟨hr2, htlb, hfd, hmagic⟩ := hfacts
  have hreads : ∃ b k', user2System (World.grant 5) 0 33
      (calling (mainKernel World.smallHost) 2 0 0) = .ok (b, k') ∧ b.str = [97] :=
    ⟨_, _, rfl, rfl⟩
  have haccepts : Accepts otherServices (World.grant 5) 0 (mainKernel World.smallHost) 0 [97] k₁ :=
    ⟨hreads, eq_ok_of_toOption hk₁, by rw [hr2]; decide⟩
  have hfail : CannotConstruct plainStart k₁ [97] :=
    .badMagic (Prod.ext hfd rfl) fun h => absurd (hmagic.symm.trans h) (by decide)
  exact ⟨k₁, eq_ok_of_toOption hk₁, hr2,
    failed_start_stops_kernel rfl (by decide) haccepts ⟨rfl, fun _ _ => rfl⟩ htlb hfail⟩

/-- The same start fails the assertion on the magic number: the kernel aborts. -/
theorem bad_program_aborts : ∃ k₁, execFourBytes = .ok ((), k₁) ∧ regs k₁ 2 = 1 ∧
    (start plainStart 1 >>= fun _ => fetch) k₁ = .error (.abort .addrSpace) := by
  have hrun : (execFourBytes.toOption.map fun r => (regs r.2 2,
      stopOf ((start plainStart 1 >>= fun _ => fetch) r.2))) =
      some (1, some (.abort .addrSpace)) := by
    decide +kernel
  obtain ⟨⟨⟨⟩, k₁⟩, hk₁, hfacts⟩ := Option.map_eq_some_iff.mp hrun
  exact ⟨k₁, eq_ok_of_toOption hk₁, congrArg Prod.fst hfacts,
    eq_error_of_stopOf (congrArg Prod.snd hfacts)⟩

/-- Register 4 holds `argc`, and register 5 the address of an array of pointers to copies of
the arguments. -/
def ArgumentsPassed (m : Machine) (argc : Int) (argv : List Name) : Prop :=
  m.registers 4 = argc ∧ ∀ (i : ℕ) (arg : Name), argv[i]? = some arg → ∃ p,
    (m.readMem (wrap (m.registers 5 + 4 * i)) 4).seen = some (.inr p) ∧ m.HoldsString p arg

theorem startProcess2_registers {argv : List Name} (h : startProcess2 d argv k = .ok ((), k')) :
    regs k' 4 = 0 := by
  cases argv with
  | nil => cases h
  | cons fileName rest =>
    obtain ⟨space, k₁, -, hk'⟩ := bind_ok h
    cases hk'
    rfl

/-- `ExecV` with `argc` arguments, which are `args`, has come back in `k₁` with a pid. -/
structure AcceptsV (others : Services Tables) (env : Env) (t : PTable.Addr) (k : Kernel Tables)
    (argc addr : Int) (args : List Name) (k₁ : Kernel Tables) : Prop where
  reads : ∃ k', readArgs env addr argc.toNat (calling k 55 argc addr) = .ok (args, k')
  returns : exceptionHandler (Tables.services t others) env .syscallException
    (calling k 55 argc addr) = .ok ((), k₁)
  nonneg : 0 ≤ regs k₁ 2

section ExecV
variable {others : Services Tables} {env : Env} {t : PTable.Addr} {θ : PTable.Thread}
  {argc addr : Int} {args : List Name} {k₁ k₂ k₃ : Kernel Tables}

theorem readArgs_length {κ : Type} {k k' : Kernel κ} {n : ℕ}
    (h : readArgs env addr n k = .ok (args, k')) : args.length = n := by
  induction n generalizing addr args k with
  | zero =>
    cases h
    rfl
  | succ n ih =>
    obtain ⟨v, k₁, -, h⟩ := bind_ok h
    obtain ⟨b, k₂, -, h⟩ := bind_ok h
    obtain ⟨rest, k₃, hrest, h⟩ := bind_ok h
    cases h
    rw [List.length_cons, ih hrest]

theorem AcceptsV.execV_eq (h : AcceptsV others env t k argc addr args k₁) :
    k.tables.execV t args = .ok (regs k₁ 2, k₁.tables) := by
  obtain ⟨k', hargs⟩ := h.reads
  have hcall : scExecV (Tables.services t others) env (calling k 55 argc addr) = .ok ((), k₁) :=
    h.returns
  obtain ⟨_, _, hr4, hcall⟩ := bind_ok hcall
  cases hr4
  obtain ⟨_, _, hr5, hcall⟩ := bind_ok hcall
  cases hr5
  obtain ⟨_, _, hnew, hcall⟩ := bind_ok hcall
  rcases ite_ok hnew with ⟨-, hnew⟩ | ⟨-, hnew⟩
  · cases hnew
  cases hnew
  obtain ⟨args', k₄, hargs', hcall⟩ := bind_ok hcall
  cases hargs'.symm.trans hargs
  obtain ⟨_, _, hset, hcall⟩ := bind_ok hcall
  cases hset
  obtain ⟨pid, k₅, hsvc, hret⟩ := bind_ok hcall
  cases hret
  have htables : k'.tables = k.tables :=
    congrArg (·.2.2.2.2.2) (keeps_besides_readArgs _ _ _ _ _ _ hargs)
  unfold service at hsvc
  dsimp only at hsvc
  rw [htables] at hsvc
  split at hsvc
  · cases hsvc
  · next hx =>
    cases hsvc
    exact hx

theorem AcceptsV.pending (h : AcceptsV others env t k argc addr args k₁) (hargc : 1 ≤ argc)
    (ht : k.tables.pTab.thr t = some θ) (hne : t ≠ k.tables.pTab.next) :
    (∃ θ', k₁.tables.pTab.thr k.tables.pTab.next = some θ' ∧ θ'.pc = .start .startProcess2) ∧
      k₁.tables.argv k.tables.pTab.next = args := by
  have hsvc := h.execV_eq
  have hlen : args.length = argc.toNat := by
    obtain ⟨k', hargs⟩ := h.reads
    exact readArgs_length hargs
  cases args with
  | nil =>
    rw [List.length_nil] at hlen
    omega
  | cons argv0 rest =>
    by_cases hfull : k.tables.pTab.Full
    · obtain ⟨x, hx, -⟩ := Tables.exec_refused (c := .execV argv0) ht (.inl hfull)
      obtain ⟨x', hx', -⟩ := Tables.execV_of_exec rest hx
      have hr2 : -1 = regs k₁ 2 := congrArg Prod.fst (Except.ok.inj (hx'.symm.trans hsvc))
      have := h.nonneg
      omega
    · obtain ⟨x, hx, hcreated⟩ := Tables.exec_created (c := .execV argv0) ht hne hfull
        (by rintro (h | h) <;> cases h)
      obtain ⟨x', hx', hpTab, hargv⟩ := Tables.execV_of_exec rest hx
      have hout := Except.ok.inj (hx'.symm.trans hsvc)
      have hr2 : k.tables.pTab.getFreeSlot = regs k₁ 2 := congrArg Prod.fst hout
      have hx₁ : x' = k₁.tables := congrArg Prod.snd hout
      subst hx₁
      rw [hpTab]
      exact ⟨⟨_, hcreated.thr, rfl⟩, hargv (hr2 ▸ h.nonneg)⟩

/-- No process that `ExecV` has started finds its arguments when its program begins. -/
theorem execV_arguments_lost (hargc : 1 ≤ argc) (ht : k.tables.pTab.thr t = some θ)
    (hne : t ≠ k.tables.pTab.next) (hexec : AcceptsV others env t k argc addr args k₁)
    (hthr : k₂.tables.pTab.thr k.tables.pTab.next = k₁.tables.pTab.thr k.tables.pTab.next)
    (hstart : start d k.tables.pTab.next k₂ = .ok ((), k₃)) :
    ¬ArgumentsPassed k₃.machine argc args := by
  obtain ⟨⟨⟨pid, θname, pc, r2⟩, ht', hpc⟩, -⟩ := hexec.pending hargc ht hne
  dsimp only at hpc
  subst hpc
  have hstart' : start d k.tables.pTab.next k₂ =
      startProcess2 d (k₂.tables.argv k.tables.pTab.next) k₂ := by
    rw [start]
    refine (bind_of_ok (a := k₂) rfl).trans ?_
    simp only [hthr, ht']
  have hr4 := startProcess2_registers (hstart'.symm.trans hstart)
  rintro ⟨hargc', -⟩
  have : (0 : Int) = argc := hr4.symm.trans hargc'
  omega

end ExecV

def execVProgram : Except Stop (Unit × Kernel Tables) :=
  execVOutcome otherServices (World.grant 5) 0 (mainKernel { World.smallHost with
    data := fun i => if i = 0 then SpaceSystem.System.bssProgram 0 else [] }) 4

theorem execVProgram_run : (execVProgram.toOption.map fun r => (regs r.2 2,
    (start plainStart 1 r.2).toOption.map fun r' => regs r'.2 4)) = some (1, some 0) := by
  decide +kernel

theorem execV_arguments_lost_program : ∃ k₁ k₂, execVProgram = .ok ((), k₁) ∧ regs k₁ 2 = 1 ∧
    start plainStart 1 k₁ = .ok ((), k₂) ∧ ¬ArgumentsPassed k₂.machine 1 [[97]] := by
  obtain ⟨⟨⟨⟩, k₁⟩, hk₁, hfacts⟩ := Option.map_eq_some_iff.mp execVProgram_run
  have hr2 : regs k₁ 2 = 1 := congrArg Prod.fst hfacts
  obtain ⟨⟨⟨⟩, k₂⟩, hk₂, -⟩ := Option.map_eq_some_iff.mp (congrArg Prod.snd hfacts)
  have haccepts : AcceptsV otherServices (World.grant 5) 0 _ 1 4 [[97]] k₁ :=
    ⟨⟨_, rfl⟩, eq_ok_of_toOption hk₁, by rw [hr2]; decide⟩
  exact ⟨k₁, k₂, eq_ok_of_toOption hk₁, hr2, eq_ok_of_toOption hk₂,
    execV_arguments_lost (by decide) rfl (by decide) haccepts rfl (eq_ok_of_toOption hk₂)⟩

/-- The program begins with 0 in register 4 and not with 1. -/
theorem execV_argc_zero : ∃ k₁ k₂, execVProgram = .ok ((), k₁) ∧ regs k₁ 2 = 1 ∧
    start plainStart 1 k₁ = .ok ((), k₂) ∧ regs k₂ 4 = 0 := by
  obtain ⟨⟨⟨⟩, k₁⟩, hk₁, hfacts⟩ := Option.map_eq_some_iff.mp execVProgram_run
  obtain ⟨⟨⟨⟩, k₂⟩, hk₂, hr4⟩ := Option.map_eq_some_iff.mp (congrArg Prod.snd hfacts)
  exact ⟨k₁, k₂, eq_ok_of_toOption hk₁, congrArg Prod.fst hfacts, eq_ok_of_toOption hk₂, hr4⟩

end Sys
end Nachos
