import Mathlib.Data.List.GetD
import Nachos.BadPointer
import Nachos.Bitmap
import Nachos.ProcessCore

namespace Nachos
open TwosComplement Programs

namespace PTable

def ExecCall.starter : ExecCall → Starter
  | .execUpdate _ => .startProcess1
  | .execV _ => .startProcess2

def ExecCall.filename : ExecCall → Name
  | .execUpdate name => name.getD []
  | .execV argv0 => argv0

/-- What `ExecUpdate` does not start, and `ExecV` does. -/
def ExecCall.Refuses (c : ExecCall) (currentName : Name) : Prop :=
  c = .execUpdate none ∨ c = .execUpdate (some currentName)

namespace State
variable {s s' : State} {t : Addr} {θ : Thread} {name : Name} {c : ExecCall}

def returns (t : Addr) : ℕ → State → Option (Int × State)
  | 0, _ => none
  | n + 1, s =>
    match s.thr t with
    | none => none
    | some θ => if θ.pc = .user then some (θ.r2, s) else (s.advance t θ θ.pc).bind (returns t n)

def execCall (s : State) (t : Addr) (c : ExecCall) : Option (Int × State) :=
  (s.thr t).bind fun θ => returns t 6 (s.goto t θ (.execBody c))

def entry (s : State) (id : Int) : Option (Int × Name) :=
  (s.pcb id).bind fun a => (s.heap a).map fun p => (p.parentID, p.filename)

def Full (s : State) : Prop := ∀ i : Int, 0 ≤ i → i < maxProcess → s.pcb i ≠ none

theorem getFreeSlot_neg_iff : s.getFreeSlot < 0 ↔ s.Full := by
  constructor
  · intro h i h0 h1 hnone
    unfold getFreeSlot at h
    split at h
    · omega
    · next hf =>
      have hmem : i.toNat ∈ List.range 10 := by
        unfold maxProcess at h1
        exact List.mem_range.mpr (by omega)
      have hi := List.find?_eq_none.mp hf i.toNat hmem
      rw [Int.toNat_of_nonneg h0, hnone] at hi
      exact hi rfl
  · intro h
    by_contra hneg
    obtain ⟨hnone, h0, h1⟩ := getFreeSlot_spec hneg
    exact h _ h0 h1 hnone

def placed (s : State) (t : Addr) (θ : Thread) (name : Name) (f : Starter) : State :=
  { (s.setPCB s.next (newPCB s.getFreeSlot θ.processID name (s.fresh s.next))).goto t θ
      (.execMutex s.next f) with
    pcb := Function.update s.pcb s.getFreeSlot (some s.next)
    next := s.next + 1
    hist := s.hist.create t s.next }

/-- Thread `t` gets back to its program, with `r2` as the result and the table as `Q` says. -/
def Ends (t : Addr) (n : ℕ) (s : State) (r2 : Int) (Q : State → Prop) : Prop :=
  ∃ s', returns t n s = some (r2, s') ∧ Q s'

theorem ends_user {r2 : Int} {Q : State → Prop} (n : ℕ) (ht : s.thr t = some θ)
    (hpc : θ.pc = .user) (hr : θ.r2 = r2) (hQ : Q s) : Ends t (n + 1) s r2 Q := by
  refine ⟨s, ?_, hQ⟩
  simp only [returns, ht, hpc, hr, if_true]

theorem ends_step {r2 : Int} {Q : State → Prop} {n : ℕ} {pc : PC} (ht : s.thr t = some θ)
    (hpc : θ.pc = pc) (hne : pc ≠ .user) (hs : s.advance t θ pc = some s')
    (h : Ends t n s' r2 Q) : Ends t (n + 1) s r2 Q := by
  obtain ⟨s'', hs'', hQ⟩ := h
  refine ⟨s'', ?_, hQ⟩
  simp only [returns, ht, hpc, if_neg hne, hs, Option.bind_some, hs'']

theorem thr_goto_self (s : State) (t : Addr) (θ : Thread) (pc : PC) :
    (s.goto t θ pc).thr t = some { θ with pc := pc } := Function.update_self ..

theorem heap_goto_setPCB (s : State) (t a : Addr) (θ : Thread) (p : PCB) (pc : PC) :
    ((s.setPCB a p).goto t θ pc).heap a = some p := Function.update_self ..

theorem ends_refused (n : ℕ) (ht : s.thr t = some θ) (hpc : θ.pc = .execBody c)
    (h : s.execBody t θ c = s.goto t θ .execFail) :
    Ends t (n + 3) s (-1) fun s' => s'.pcb = s.pcb ∧ s'.heap = s.heap := by
  have hbody : s.advance t θ (.execBody c) = some (s.goto t θ .execFail) := by
    rw [advance, h]
  refine ends_step ht hpc (by simp) hbody ?_
  refine ends_step (thr_goto_self ..) rfl (by simp) rfl ?_
  exact ends_user n (Function.update_self ..) rfl rfl ⟨rfl, rfl⟩

theorem live_of_heap {a : Addr} {p : PCB} (hp : s.heap a = some p) (hd : p.deleted = false) :
    s.live a = some p := by
  simp [live, hp, hd]

theorem Ends.imp {r2 : Int} {Q Q' : State → Prop} {n : ℕ} (h : Ends t n s r2 Q)
    (hQ : ∀ s', Q s' → Q' s') : Ends t n s r2 Q' := by
  obtain ⟨s', hs', h⟩ := h
  exact ⟨s', hs', hQ s' h⟩

section Start
variable {a : Addr} {p : PCB} {f : Starter} (n : ℕ) (ht : s.thr t = some θ) (hp : s.heap a = some p)

include ht hp

theorem ends_execUnlock (hpc : θ.pc = .execUnlock a) :
    Ends t (n + 2) s p.processID fun s' => s'.pcb = s.pcb ∧ s'.heap = s.heap ∧
      ∀ u ≠ t, s'.thr u = s.thr u := by
  refine ends_step ht hpc (by simp) (by rw [advance, hp]) ?_
  refine ends_user n (Function.update_self ..) rfl rfl ⟨rfl, rfl, ?_⟩
  intro u hu
  exact Function.update_of_ne hu ..

theorem ends_execUnmutex (hpc : θ.pc = .execUnmutex a) (hd : p.deleted = false) :
    Ends t (n + 3) s p.processID fun s' => s'.pcb = s.pcb ∧
      s'.heap = Function.update s.heap a (some { p with mutex := p.mutex.V.1 }) ∧
      ∀ u ≠ t, s'.thr u = s.thr u := by
  have hstep : s.advance t θ (.execUnmutex a) =
      some ((s.setPCB a { p with mutex := p.mutex.V.1 }).goto t θ (.execUnlock a)) := by
    rw [advance, onPCB, live_of_heap hp hd]
  refine ends_step ht hpc (by simp) hstep ?_
  refine (ends_execUnlock n (thr_goto_self ..) (heap_goto_setPCB ..) rfl).imp ?_
  rintro s' ⟨hpcb, hheap, hthr⟩
  refine ⟨hpcb, hheap, fun u hu => (hthr u hu).trans ?_⟩
  exact Function.update_of_ne hu ..

theorem ends_execFork (hpc : θ.pc = .execFork a f) (hd : p.deleted = false) (hne : t ≠ a) :
    Ends t (n + 4) s p.processID fun s' => s'.pcb = s.pcb ∧
      s'.heap = Function.update s.heap a (some { p with mutex := p.mutex.V.1 }) ∧
      s'.thr a = some ⟨p.processID, p.filename, .start f, 0⟩ := by
  let s₁ : State := { s.goto t θ (.execUnmutex a) with
    thr := Function.update (s.goto t θ (.execUnmutex a)).thr a
      (some ⟨p.processID, p.filename, .start f, 0⟩) }
  have hstep : s.advance t θ (.execFork a f) = some s₁ := by
    rw [advance, onPCB, live_of_heap hp hd]
  have ht₁ : s₁.thr t = some { θ with pc := .execUnmutex a } :=
    (Function.update_of_ne hne ..).trans (thr_goto_self ..)
  have hp₁ : s₁.heap a = some p := hp
  refine ends_step ht hpc (by simp) hstep ((ends_execUnmutex n ht₁ hp₁ rfl hd).imp ?_)
  rintro s' ⟨hpcb, hheap, hthr⟩
  refine ⟨hpcb, hheap, (hthr a hne.symm).trans ?_⟩
  exact Function.update_self ..

theorem ends_execMutex (hpc : θ.pc = .execMutex a f) (hd : p.deleted = false) (hne : t ≠ a)
    (hm : p.mutex = .new 1) :
    Ends t (n + 5) s p.processID fun s' => s'.pcb = s.pcb ∧ s'.heap = s.heap ∧
      s'.thr a = some ⟨p.processID, p.filename, .start f, 0⟩ := by
  have hstep : s.advance t θ (.execMutex a f) =
      some ((s.setPCB a { p with mutex := .new 0 }).goto t θ (.execFork a f)) := by
    rw [advance, lockMutex, onPCB, live_of_heap hp hd]
    simp [hm, Semaphore.P, Semaphore.new, wrap]
  -- the mutex is back where it was
  have hback : ({ p with mutex := (Semaphore.new 0).V.1 } : PCB) = p := by
    cases p
    cases hm
    rfl
  refine ends_step ht hpc (by simp) hstep ?_
  refine (ends_execFork (p := { p with mutex := .new 0 }) n (thr_goto_self ..)
    (heap_goto_setPCB ..) rfl hd hne).imp ?_
  rintro s' ⟨hpcb, hheap, hthr⟩
  refine ⟨hpcb, ?_, hthr⟩
  calc s'.heap = Function.update (Function.update s.heap a _) a (some p) := by
        rw [hheap, hback]
        rfl
    _ = s.heap := by rw [Function.update_idem, ← hp, Function.update_eq_self]

end Start

/-- The new process is in the free slot, and its thread is ready to start. -/
theorem ends_placed (n : ℕ) {f : Starter} (ht : s.thr t = some θ) (hpc : θ.pc = .execBody c)
    (hne : t ≠ s.next) (h : s.execBody t θ c = s.placed t θ name f) :
    Ends t (n + 6) s s.getFreeSlot fun s' =>
      s'.pcb = Function.update s.pcb s.getFreeSlot (some s.next) ∧
      s'.heap = Function.update s.heap s.next
        (some (newPCB s.getFreeSlot θ.processID name (s.fresh s.next))) ∧
      s'.thr s.next = some ⟨s.getFreeSlot, name, .start f, 0⟩ := by
  refine ends_step ht hpc (by simp) (by rw [advance, h]) ?_
  exact ends_execMutex (a := s.next)
    (p := newPCB s.getFreeSlot θ.processID name (s.fresh s.next)) (s := s.placed t θ name f) n
    (Function.update_self ..) (Function.update_self ..) rfl rfl hne rfl

theorem execBody_refused (h : s.Full ∨ c.Refuses θ.name) :
    s.execBody t θ c = s.goto t θ .execFail := by
  rcases h with h | rfl | rfl
  · have hslot := getFreeSlot_neg_iff.mpr h
    cases c with
    | execUpdate name =>
      cases name with
      | none => rfl
      | some name => simp only [execBody, if_pos hslot, ite_self]
    | execV argv0 => simp only [execBody, if_pos hslot]
  · rfl
  · simp only [execBody, if_true]

theorem execBody_placed (hfree : ¬s.Full) (h : ¬c.Refuses θ.name) :
    s.execBody t θ c = s.placed t θ c.filename c.starter := by
  have hslot : ¬s.getFreeSlot < 0 := fun hneg => hfree (getFreeSlot_neg_iff.mp hneg)
  cases c with
  | execUpdate name =>
    cases name with
    | none => exact absurd (.inl rfl) h
    | some name =>
      have hne : name ≠ θ.name := fun heq => h (.inr (congrArg _ (congrArg some heq)))
      simp only [execBody, if_neg hne, if_neg hslot]
      rfl
  | execV argv0 =>
    simp only [execBody, if_neg hslot]
    rfl

/-- The process that a call has put into the table. -/
structure Created (s : State) (θ : Thread) (c : ExecCall) (s' : State) : Prop where
  pcb : s'.pcb = Function.update s.pcb s.getFreeSlot (some s.next)
  heap : s'.heap = Function.update s.heap s.next
    (some (newPCB s.getFreeSlot θ.processID c.filename (s.fresh s.next)))
  thr : s'.thr s.next = some ⟨s.getFreeSlot, c.filename, .start c.starter, 0⟩

theorem execCall_refused (ht : s.thr t = some θ) (h : s.Full ∨ c.Refuses θ.name) :
    ∃ s', s.execCall t c = some (-1, s') ∧ s'.pcb = s.pcb ∧ s'.heap = s.heap := by
  rw [execCall, ht, Option.bind_some]
  exact ends_refused 3 (thr_goto_self ..) rfl (execBody_refused h)

theorem execCall_created (ht : s.thr t = some θ) (hne : t ≠ s.next) (hfree : ¬s.Full)
    (h : ¬c.Refuses θ.name) :
    ∃ s', s.execCall t c = some (s.getFreeSlot, s') ∧ s.Created θ c s' := by
  rw [execCall, ht, Option.bind_some]
  obtain ⟨s', hs', hpcb, hheap, hthr⟩ := ends_placed (s := s.goto t θ (.execBody c)) 0
    (thr_goto_self ..) rfl hne (execBody_placed hfree h)
  exact ⟨s', hs', hpcb, hheap, hthr⟩

theorem Created.entry_eq {s₁ s₂ : State} {c₁ c₂ : ExecCall} (h₁ : s.Created θ c₁ s₁)
    (h₂ : s.Created θ c₂ s₂) (hname : c₁.filename = c₂.filename) (id : Int) :
    s₁.entry id = s₂.entry id := by
  simp only [entry, h₁.pcb, h₁.heap, h₂.pcb, h₂.heap, hname]

end State
end PTable

/-- The tables of processes and of frames, and the arguments that the threads started by
`ExecV` have been forked with. -/
structure Tables where
  pTab : PTable.State
  gPhysPageBitMap : Bitmap
  argv : PTable.Addr → List Name

namespace Tables

def exec (t : PTable.Addr) (c : PTable.ExecCall) (x : Tables) : Except Stop (Int × Tables) :=
  match x.pTab.execCall t c with
  | none => .error .away
  | some (pid, s) => .ok (pid, { x with pTab := s })

/-- Without arguments `argv[0]` is the null pointer, which a new PCB would copy from. -/
def execV (t : PTable.Addr) (args : List Name) (x : Tables) : Except Stop (Int × Tables) :=
  match args with
  | [] => if x.pTab.getFreeSlot < 0 then x.exec t (.execV []) else .error (.abort .nullPointer)
  | argv0 :: _ =>
    match x.exec t (.execV argv0) with
    | .error e => .error e
    | .ok (pid, x') =>
      .ok (pid, if pid < 0 then x' else
        { x' with argv := Function.update x.argv x.pTab.next args })

def services (t : PTable.Addr) (others : Services Tables) : Services Tables :=
  { others with
    execUpdate := fun name => exec t (.execUpdate (some name))
    execV := fun _ => execV t }

variable {x : Tables} {t : PTable.Addr} {θ : PTable.Thread} {c : PTable.ExecCall}

theorem exec_refused (ht : x.pTab.thr t = some θ) (h : x.pTab.Full ∨ c.Refuses θ.name) :
    ∃ x', x.exec t c = .ok (-1, x') ∧ x'.pTab.entry = x.pTab.entry := by
  obtain ⟨s, hs, hpcb, hheap⟩ := PTable.State.execCall_refused ht h
  refine ⟨{ x with pTab := s }, by rw [exec, hs], ?_⟩
  ext1 id
  simp only [PTable.State.entry, hpcb, hheap]

theorem exec_created (ht : x.pTab.thr t = some θ) (hne : t ≠ x.pTab.next) (hfree : ¬x.pTab.Full)
    (h : ¬c.Refuses θ.name) :
    ∃ x', x.exec t c = .ok (x.pTab.getFreeSlot, x') ∧ x.pTab.Created θ c x'.pTab := by
  obtain ⟨s, hs, hcreated⟩ := PTable.State.execCall_created ht hne hfree h
  exact ⟨{ x with pTab := s }, by rw [exec, hs], hcreated⟩

/-- What `ExecV` does to the process table depends on the first argument only; all of them
are handed to the new thread. -/
theorem execV_of_exec {argv0 : Name} {pid : Int} {x' : Tables} (args : List Name)
    (h : x.exec t (.execV argv0) = .ok (pid, x')) :
    ∃ x'', x.execV t (argv0 :: args) = .ok (pid, x'') ∧ x''.pTab = x'.pTab ∧
      (0 ≤ pid → x''.argv x.pTab.next = argv0 :: args) := by
  simp only [execV, h]
  split_ifs with hpid
  · exact ⟨_, rfl, rfl, fun h0 => absurd hpid (not_lt.mpr h0)⟩
  · exact ⟨_, rfl, rfl, fun _ => Function.update_self ..⟩

end Tables

/-- The string `name` with its NUL stands at an address. -/
def Machine.HoldsString (m : Machine) : Int → Name → Prop
  | addr, [] => (m.readMem addr 1).seen = some (.inr 0)
  | addr, c :: rest => c ≠ 0 ∧ (m.readMem addr 1).seen = some (.inr (charToInt c)) ∧
      m.HoldsString (wrap (addr + 1)) rest

theorem Machine.HoldsString.of_image {m m' : Machine} {addr : Int} {name : Name}
    (htlb : m.tlb = none) (himage : m'.image = m.image) (h : m.HoldsString addr name) :
    m'.HoldsString addr name := by
  induction name generalizing addr with
  | nil => exact (readMem_seen_image htlb himage addr 1).trans h
  | cons c rest ih =>
    exact ⟨h.1, (readMem_seen_image htlb himage addr 1).trans h.2.1, ih h.2.2⟩

theorem Machine.HoldsString.ne_zero {m : Machine} {addr : Int} {name : Name}
    (h : m.HoldsString addr name) : ∀ c ∈ name, c ≠ 0 := by
  induction name generalizing addr with
  | nil => nofun
  | cons c rest ih => exact List.forall_mem_cons.mpr ⟨h.1, ih h.2.2⟩

theorem ofNat_charToInt (c : UInt8) : UInt8.ofNat (unsigned (charToInt c) % 256) = c := by
  apply UInt8.toNat_inj.mp
  have hlt := c.toNat_lt
  rw [UInt8.toNat_ofNat', charToInt, BitVec.toInt_eq_toNat_cond]
  unfold unsigned
  change _ = c.toBitVec.toNat
  change c.toBitVec.toNat < 256 at hlt
  split_ifs <;> omega

namespace Sys
variable {κ : Type} {k : Kernel κ} {env : Env} {addr : Int} {name : Name}

theorem readMem_seen_eq {size v : Int} (h : (k.machine.readMem addr size).seen = some (.inr v)) :
    ∃ m', readMem addr size k = .ok (some v, { k with machine := m' }) ∧
      m'.image = k.machine.image ∧ m'.registers = k.machine.registers := by
  obtain ⟨m', hm'⟩ := Machine.Outcome.done_of_seen h
  refine ⟨m', ?_, Machine.readMem_image hm', Machine.readMem_registers hm'⟩
  rw [readMem_eq, hm']

/-- The loop copies the string, or as much of it as it may. -/
theorem copyIn_take (oneChar : Int) (n : ℕ) (htlb : k.machine.tlb = none)
    (h : k.machine.HoldsString addr name) :
    ∃ m', copyIn addr oneChar n k = .ok (name.take n, { k with machine := m' }) ∧
      m'.image = k.machine.image ∧ m'.registers = k.machine.registers := by
  induction n generalizing addr oneChar name k with
  | zero => exact ⟨k.machine, rfl, rfl, rfl⟩
  | succ n ih =>
    cases name with
    | nil =>
      obtain ⟨m', hread, himage, hregs⟩ := readMem_seen_eq h
      refine ⟨m', ?_, himage, hregs⟩
      rw [copyIn, bind_of_ok hread]
      rfl
    | cons c rest =>
      obtain ⟨hc, hseen, hrest⟩ := h
      obtain ⟨m₁, hread, himage₁, hregs₁⟩ := readMem_seen_eq hseen
      have htlb₁ : m₁.tlb = none := Machine.tlb_of_layout htlb (congrArg Prod.fst himage₁)
      obtain ⟨m', hcopy, himage, hregs⟩ := ih (k := { k with machine := m₁ }) (charToInt c) htlb₁
        (hrest.of_image htlb himage₁)
      refine ⟨m', ?_, himage.trans himage₁, hregs.trans hregs₁⟩
      rw [copyIn, bind_of_ok hread]
      dsimp only [Option.getD_some]
      rw [if_neg (charToInt_ne_zero hc), bind_of_ok hcopy, ofNat_charToInt]
      rfl

theorem str_of_bytes {b : Buffer} (hb : ∀ i < b.size, b.byte i = name.getD i 0)
    (hname : ∀ c ∈ name, c ≠ 0) (hlen : name.length < b.size) : b.str = name := by
  obtain ⟨d, hd⟩ := Nat.exists_eq_add_of_lt hlen
  have hbytes : (List.range b.size).map b.byte = name ++ List.replicate (d + 1) 0 := by
    apply List.ext_getElem
    · simp [hd]
      omega
    · intro i h₁ h₂
      rw [List.length_map, List.length_range] at h₁
      simp only [List.getElem_map, List.getElem_range, hb i h₁]
      by_cases hi : i < name.length
      · rw [List.getD_eq_getElem _ _ hi, List.getElem_append_left hi]
      · rw [List.getD_eq_default _ _ (not_lt.mp hi), List.getElem_append_right (not_lt.mp hi)]
        rw [List.getElem_replicate]
  rw [Buffer.str, hbytes, List.takeWhile_append_of_pos (by simpa using hname)]
  simp [List.replicate_succ]

theorem user2System_take (env : Env) (limit : ℕ) (htlb : k.machine.tlb = none)
    (h : k.machine.HoldsString addr name) (hlimit : (limit : Int) < intMax) :
    ∃ b m', user2System env addr limit k = .ok (b, { k with machine := m' }) ∧
      b.str = name.take limit ∧ m'.image = k.machine.image ∧
      m'.registers = k.machine.registers := by
  have hsize : wrap ((limit : Int) + 1) = limit + 1 := by
    unfold intMax at hlimit
    exact wrap_of_range (by omega) (by omega)
  obtain ⟨m', hcopy, hm'⟩ := copyIn_take 0 limit htlb h
  refine ⟨⟨limit + 1, fun i => if i < limit + 1 then (name.take limit).getD i 0 else env.junk i⟩,
    m', ?_, ?_, hm'⟩
  · have hnew : newBuffer (wrap ((limit : Int) + 1)) env.junk k =
        .ok (⟨limit + 1, env.junk⟩, k) := by
      rw [newBuffer, hsize, if_neg (by omega)]
      rfl
    exact (bind_of_ok hnew).trans (bind_of_ok hcopy)
  · apply str_of_bytes
    · intro i hi
      exact if_pos hi
    · exact fun c hc => h.ne_zero c (List.mem_of_mem_take hc)
    · dsimp only
      rw [List.length_take]
      omega

theorem user2System_string (env : Env) (limit : ℕ) (htlb : k.machine.tlb = none)
    (h : k.machine.HoldsString addr name) (hlen : name.length ≤ limit)
    (hlimit : (limit : Int) < intMax) :
    ∃ b m', user2System env addr limit k = .ok (b, { k with machine := m' }) ∧ b.str = name ∧
      m'.image = k.machine.image ∧ m'.registers = k.machine.registers := by
  have htake := user2System_take env limit htlb h hlimit
  rwa [List.take_of_length_le hlen] at htake

def calling (k : Kernel κ) (type r4 r5 : Int) : Kernel κ :=
  { k with machine := ((k.machine.setRegister 2 type).setRegister 4 r4).setRegister 5 r5 }

/-- The call returns `r2`, with the tables `x`. -/
def Returns (r : Except Stop (Unit × Kernel κ)) (r2 : Int) (x : κ) : Prop :=
  ∃ k', r = .ok ((), k') ∧ regs k' 2 = r2 ∧ k'.tables = x

theorem returns_ret (v : Int) (k : Kernel κ) : Returns (ret v k) v k.tables := ⟨_, rfl, rfl, rfl⟩

theorem returns_service {f : κ → Except Stop (Int × κ)} {pid : Int} {x : κ}
    (h : f k.tables = .ok (pid, x)) : Returns ((service f >>= ret) k) pid x := by
  have hs : service f k = .ok (pid, { k with tables := x }) := by rw [service, h]
  rw [bind_of_ok hs]
  exact returns_ret ..

section Calls
variable (svc : Services κ)

section Exec
variable {b : Buffer} {m' : Machine} {r5 : Int}
  (hread : user2System env addr 33 (calling k 2 addr r5) =
    .ok (b, { calling k 2 addr r5 with machine := m' }))
include hread

theorem exec_reads : exceptionHandler svc env .syscallException (calling k 2 addr r5) =
    (match FileSystem.openAny k.host env b.str (env.junk 0).toNat with
      | (none, h) => do
        setHost h
        ret (-1)
      | (some oFile, h) => do
        setHost (← oFile.delete h)
        ret (← service (svc.execUpdate b.str)) : Sys κ Unit)
      { calling k 2 addr r5 with machine := m' } := by
  change scExec svc env (calling k 2 addr r5) = _
  rw [scExec]
  exact (bind_of_ok (a := addr) rfl).trans (bind_of_ok hread)

theorem exec_closed (hclosed : (k.host.openRW env b.str).1 = none) :
    Returns (exceptionHandler svc env .syscallException (calling k 2 addr r5)) (-1) k.tables := by
  rcases k.host.openRW_cases env b.str with h | ⟨fd, n, -, -, h⟩
  · rw [exec_reads svc hread, FileSystem.openAny, h]
    exact returns_ret (-1) { calling k 2 addr r5 with machine := m' }
  · rw [h] at hclosed
    cases hclosed

theorem exec_opened (hopen : (k.host.openRW env b.str).1.isSome) {pid : Int} {x : κ}
    (hsvc : svc.execUpdate b.str k.tables = .ok (pid, x)) :
    Returns (exceptionHandler svc env .syscallException (calling k 2 addr r5)) pid x := by
  rcases k.host.openRW_cases env b.str with h | ⟨fd, n, -, -, h⟩
  · rw [h] at hopen
    cases hopen
  · have hdelete : (OpenFile.ofFile fd (env.junk 0).toNat).delete
        (k.host.setFd fd (some (.file n 0))) =
        .ok ((k.host.setFd fd (some (.file n 0))).setFd fd none) := by
      simp [OpenFile.delete, OpenFile.ofFile, Host.close, Host.fds_setFd]
    rw [exec_reads svc hread, FileSystem.openAny, h]
    dsimp only [Option.map_some]
    rw [hdelete]
    exact returns_service (k := { calling k 2 addr r5 with machine := m', host := _ }) hsvc

end Exec

theorem execV_one (htlb : k.machine.tlb = none) (hname : k.machine.HoldsString addr name)
    (hlen : name.length ≤ 31) {argv : Int}
    (hargv : (k.machine.readMem argv 4).seen = some (.inr addr)) {pid : Int} {x : κ}
    (hsvc : svc.execV 1 [name] k.tables = .ok (pid, x)) :
    Returns (exceptionHandler svc env .syscallException (calling k 55 1 argv)) pid x := by
  have hseen : ((calling k 55 1 argv).machine.readMem argv 4).seen = some (.inr addr) :=
    (Machine.readMem_seen_image htlb (by rfl) argv 4).trans hargv
  obtain ⟨m₁, hptr, himage, -⟩ := readMem_seen_eq hseen
  have htlb₁ : m₁.tlb = none := Machine.tlb_of_layout htlb (congrArg Prod.fst himage)
  obtain ⟨b, m', hread, rfl, -⟩ :=
    user2System_string (k := { calling k 55 1 argv with machine := m₁ }) env 32 htlb₁
      (hname.of_image htlb himage) (by omega) (by decide)
  have hargs : readArgs env argv 1 (calling k 55 1 argv) =
      .ok ([b.str], { calling k 55 1 argv with machine := m' }) :=
    (bind_of_ok hptr).trans (bind_of_ok hread)
  have hexec : scExecV svc env (calling k 55 1 argv) =
      (do
        setOverrun ((1 : Int) < 0)
        ret (← service (svc.execV 1 [b.str])) : Sys κ Unit)
        { calling k 55 1 argv with machine := m' } := by
    rw [scExecV]
    refine (bind_of_ok (a := 1) rfl).trans ((bind_of_ok (a := argv) rfl).trans ?_)
    exact (bind_of_ok (a := ()) rfl).trans (bind_of_ok hargs)
  change Returns (scExecV svc env (calling k 55 1 argv)) pid x
  rw [hexec]
  exact returns_service (k := { calling k 55 1 argv with machine := m', overrun := _ }) hsvc

end Calls

/-- Both calls return, with the same value, and leave the same entries in the table. -/
def Agree (r₁ r₂ : Except Stop (Unit × Kernel Tables)) : Prop :=
  ∃ k₁ k₂, r₁ = .ok ((), k₁) ∧ r₂ = .ok ((), k₂) ∧ regs k₁ 2 = regs k₂ 2 ∧
    ∀ id, k₁.tables.pTab.entry id = k₂.tables.pTab.entry id

theorem agree_iff {r₁ r₂ : Except Stop (Unit × Kernel Tables)} {p₁ p₂ : Int} {x₁ x₂ : Tables}
    (h₁ : Returns r₁ p₁ x₁) (h₂ : Returns r₂ p₂ x₂) :
    Agree r₁ r₂ ↔ p₁ = p₂ ∧ ∀ id, x₁.pTab.entry id = x₂.pTab.entry id := by
  obtain ⟨k₁, rfl, rfl, rfl⟩ := h₁
  obtain ⟨k₂, rfl, rfl, rfl⟩ := h₂
  constructor
  · rintro ⟨k₁', k₂', h₁, h₂, h⟩
    cases h₁
    cases h₂
    exact h
  · intro h
    exact ⟨k₁, k₂, rfl, rfl, h⟩

section Outcomes
variable {k : Kernel Tables} {t : PTable.Addr} {θ : PTable.Thread}
  (others : Services Tables) (env : Env)

def execOutcome (t : PTable.Addr) (k : Kernel Tables) (addr : Int) :
    Except Stop (Unit × Kernel Tables) :=
  exceptionHandler (Tables.services t others) env .syscallException
    (calling k 2 addr (regs k 5))

def execVOutcome (t : PTable.Addr) (k : Kernel Tables) (argv : Int) :
    Except Stop (Unit × Kernel Tables) :=
  exceptionHandler (Tables.services t others) env .syscallException (calling k 55 1 argv)

section Exec
variable {b : Buffer} {m' : Machine}
  (hread : user2System env addr 33 (calling k 2 addr (regs k 5)) =
    .ok (b, { calling k 2 addr (regs k 5) with machine := m' }))
include hread

theorem execOutcome_refused (ht : k.tables.pTab.thr t = some θ)
    (h : k.tables.pTab.Full ∨ ¬((k.host.openRW env b.str).1.isSome ∧ b.str ≠ θ.name)) :
    ∃ x, Returns (execOutcome others env t k addr) (-1) x ∧
      x.pTab.entry = k.tables.pTab.entry := by
  by_cases hopen : (k.host.openRW env b.str).1.isSome
  · have hrefuses : k.tables.pTab.Full ∨
        PTable.ExecCall.Refuses (.execUpdate (some b.str)) θ.name := by
      refine h.imp_right fun hnot => .inr ?_
      rw [not_not.mp fun hown => hnot ⟨hopen, hown⟩]
    obtain ⟨x, hx, hentry⟩ := Tables.exec_refused ht hrefuses
    exact ⟨x, exec_opened _ hread hopen hx, hentry⟩
  · exact ⟨_, exec_closed _ hread (Option.not_isSome_iff_eq_none.mp hopen), rfl⟩

theorem execOutcome_created (ht : k.tables.pTab.thr t = some θ) (hne : t ≠ k.tables.pTab.next)
    (hfree : ¬k.tables.pTab.Full) (hopen : (k.host.openRW env b.str).1.isSome)
    (hown : b.str ≠ θ.name) :
    ∃ x, Returns (execOutcome others env t k addr) k.tables.pTab.getFreeSlot x ∧
      k.tables.pTab.Created θ (.execUpdate (some b.str)) x.pTab := by
  have hrefuses : ¬PTable.ExecCall.Refuses (.execUpdate (some b.str)) θ.name := by
    rintro (h | h)
    · cases h
    · injection h with h
      injection h with h
      exact hown h
  obtain ⟨x, hx, hcreated⟩ := Tables.exec_created ht hne hfree hrefuses
  exact ⟨x, exec_opened _ hread hopen hx, hcreated⟩

end Exec

section ExecV
variable {argv : Int} (htlb : k.machine.tlb = none) (ht : k.tables.pTab.thr t = some θ)
  (hlen : name.length ≤ 31) (hname : k.machine.HoldsString addr name)
  (hargv : (k.machine.readMem argv 4).seen = some (.inr addr))
include htlb ht hlen hname hargv

theorem execVOutcome_refused (hfull : k.tables.pTab.Full) :
    ∃ x, Returns (execVOutcome others env t k argv) (-1) x ∧
      x.pTab.entry = k.tables.pTab.entry := by
  obtain ⟨x, hx, hentry⟩ := Tables.exec_refused (c := .execV name) ht (.inl hfull)
  obtain ⟨x', hx', hpTab, -⟩ := Tables.execV_of_exec [] hx
  exact ⟨x', execV_one _ htlb hname hlen hargv hx', hpTab ▸ hentry⟩

theorem execVOutcome_created (hne : t ≠ k.tables.pTab.next) (hfree : ¬k.tables.pTab.Full) :
    ∃ x, Returns (execVOutcome others env t k argv) k.tables.pTab.getFreeSlot x ∧
      k.tables.pTab.Created θ (.execV name) x.pTab := by
  have hrefuses : ¬PTable.ExecCall.Refuses (.execV name) θ.name := by
    rintro (h | h) <;> cases h
  obtain ⟨x, hx, hcreated⟩ := Tables.exec_created ht hne hfree hrefuses
  obtain ⟨x', hx', hpTab, -⟩ := Tables.execV_of_exec [] hx
  exact ⟨x', execV_one _ htlb hname hlen hargv hx', hpTab ▸ hcreated⟩

end ExecV
end Outcomes

/-- `Exec(name)` and `ExecV(1, [name])` agree where no slot is free, and else exactly for a
file that can be opened and is not the caller's own program. -/
theorem exec_agrees_execV_iff (others : Services Tables) (env : Env) {k : Kernel Tables}
    {t : PTable.Addr} {θ : PTable.Thread} {argv arg₀ : Int} (htlb : k.machine.tlb = none)
    (ht : k.tables.pTab.thr t = some θ) (hne : t ≠ k.tables.pTab.next) (hlen : name.length ≤ 31)
    (hname : k.machine.HoldsString addr name)
    (hargv : (k.machine.readMem argv 4).seen = some (.inr arg₀))
    (harg : k.machine.HoldsString arg₀ name) :
    Agree (execOutcome others env t k addr) (execVOutcome others env t k argv) ↔
      k.tables.pTab.Full ∨ (k.host.openRW env name).1.isSome ∧ name ≠ θ.name := by
  obtain ⟨b, m', hread, rfl, -⟩ := user2System_string (k := calling k 2 addr (regs k 5)) env 33
    htlb (hname.of_image htlb rfl) (by omega) (by decide)
  by_cases hfull : k.tables.pTab.Full
  · refine iff_of_true ?_ (.inl hfull)
    obtain ⟨x₁, h₁, hentry₁⟩ := execOutcome_refused others env hread ht (.inl hfull)
    obtain ⟨x₂, h₂, hentry₂⟩ := execVOutcome_refused others env htlb ht hlen harg hargv hfull
    exact (agree_iff h₁ h₂).mpr ⟨rfl, congrFun (hentry₁.trans hentry₂.symm)⟩
  obtain ⟨x₂, h₂, hcreated₂⟩ :=
    execVOutcome_created others env htlb ht hlen harg hargv hne hfull
  by_cases hstarts : (k.host.openRW env b.str).1.isSome ∧ b.str ≠ θ.name
  · refine iff_of_true ?_ (.inr hstarts)
    obtain ⟨x₁, h₁, hcreated₁⟩ :=
      execOutcome_created others env hread ht hne hfull hstarts.1 hstarts.2
    exact (agree_iff h₁ h₂).mpr ⟨rfl, hcreated₁.entry_eq hcreated₂ rfl⟩
  · refine iff_of_false ?_ (not_or.mpr ⟨hfull, hstarts⟩)
    obtain ⟨x₁, h₁, -⟩ := execOutcome_refused others env hread ht (.inr hstarts)
    rw [agree_iff h₁ h₂]
    -- a slot is not negative
    have hslot := PTable.State.getFreeSlot_neg_iff.not.mpr hfull
    rintro ⟨hr2, -⟩
    omega

def otherServices : Services Tables where
  execUpdate _ x := .ok (0, x)
  execV _ _ x := .ok (0, x)
  joinUpdate _ x := .ok (0, x)
  exitUpdate _ x := .ok ((), x)
  create _ _ x := .ok (0, x)
  wait _ x := .ok (0, x)
  signal _ x := .ok (0, x)

def mainKernel (host : Host) : Kernel Tables where
  machine := (World.smallCall 0 0 0 0 noEnv).machine
  fileSystem := ⟨fun _ => none, fun _ => []⟩
  host := host
  input := []
  console := []
  overrun := false
  tables := ⟨PTable.State.init fun _ => (0, 0), Bitmap.new 512, fun _ => []⟩

/-- The file `a` is there, and the calling thread is called `main`. -/
theorem exec_agrees_execV_file :
    Agree (execOutcome otherServices (World.grant 5) 0 (mainKernel World.smallHost) 0)
      (execVOutcome otherServices (World.grant 5) 0 (mainKernel World.smallHost) 4) := by
  have hname : (mainKernel World.smallHost).machine.HoldsString 0 [97] := by
    refine ⟨by decide, rfl, ?_⟩
    show ((mainKernel World.smallHost).machine.readMem 1 1).seen = some (.inr 0)
    rfl
  have hargv : ((mainKernel World.smallHost).machine.readMem 4 4).seen = some (.inr 0) := by
    decide +kernel
  have hstarts : ((mainKernel World.smallHost).host.openRW (World.grant 5) [97]).1.isSome ∧
      [97] ≠ PTable.State.mainName := by
    exact ⟨rfl, by decide +kernel⟩
  exact (exec_agrees_execV_iff otherServices (World.grant 5) rfl rfl (by decide) (by decide)
    hname hargv hname).mpr (.inr hstarts)

/-- Without the file `a`, `Exec` fails and `ExecV` makes an entry for a new process. -/
theorem execV_of_missing_file :
    let k := mainKernel { World.smallHost with dir := fun _ => none }
    ∃ k₁ k₂, execOutcome otherServices (World.grant 5) 0 k 0 = .ok ((), k₁) ∧
      execVOutcome otherServices (World.grant 5) 0 k 4 = .ok ((), k₂) ∧
      regs k₁ 2 = -1 ∧ k₁.tables.pTab.entry 1 = none ∧
      regs k₂ 2 = 1 ∧ k₂.tables.pTab.entry 1 = some (0, [97]) :=
  ⟨_, _, rfl, rfl, rfl, rfl, rfl, rfl⟩

end Sys
end Nachos
