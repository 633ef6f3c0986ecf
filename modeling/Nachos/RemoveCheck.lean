import Nachos.FileRuns
import Nachos.UserStrings

namespace Nachos
open TwosComplement Programs GuardedRun

/-- The flag `isOpen` after the loop of `SC_Remove` over the names. -/
def FileSystem.isOpen (fs : FileSystem) (name : Name) : Bool :=
  (List.finRange 20).any fun i => name = fs.filename i

theorem FileSystem.isOpen_iff {fs : FileSystem} {name : Name} :
    fs.isOpen name = true ↔ ∃ i, name = fs.filename i := by
  simp [isOpen]

/-- How `Remove` ends: with -1 and nothing touched if it takes the file for open, and else as
the host lets it. -/
def Removal (isOpen : Bool) (env : Env) (name : Name) (r2 : Int) (x x' : Files) : Prop :=
  (isOpen = true → r2 = -1 ∧ x' = x) ∧
    (isOpen = false → r2 = (if (FileSystem.remove x.2 env name).1 then 0 else -1) ∧
      x' = (x.1, (FileSystem.remove x.2 env name).2))

namespace Sys
variable {κ : Type} {k : Kernel κ} {env : Env} {name : Name}

theorem ret_returns (v : Int) (k : Kernel κ) :
    ∃ k', ret v k = .ok ((), k') ∧ regs k' 2 = v ∧ files k' = files k := ⟨_, rfl, rfl, rfl⟩

theorem scRemove_spec (htlb : k.machine.tlb = none)
    (hname : k.machine.HoldsString (regs k 4) name) (hne : name ≠ []) (hlen : name.length ≤ 33) :
    ∃ k', scRemove env k = .ok ((), k') ∧
      Removal (k.fileSystem.isOpen name) env name (regs k' 2) (files k) (files k') := by
  obtain ⟨b, m', hread, rfl, -⟩ := user2System_string env 33 htlb hname hlen (by decide)
  have hread : user2System env (regs k 4) (maxFileLength + 1) k =
      .ok (b, { k with machine := m' }) := hread
  have hget : (get : Sys κ (Kernel κ)) { k with machine := m' } =
      .ok ({ k with machine := m' }, { k with machine := m' }) := rfl
  unfold scRemove
  rw [readRegister_bind, bind_of_ok hread, bind_of_ok hget, if_neg hne]
  by_cases hopen : ∃ i, b.str = k.fileSystem.filename i
  · rw [if_pos hopen]
    obtain ⟨k', hret, hr2, hfiles⟩ := ret_returns (-1) { k with machine := m' }
    refine ⟨k', hret, fun _ => ⟨hr2, hfiles⟩, fun hno => ?_⟩
    rw [FileSystem.isOpen_iff.mpr hopen] at hno
    cases hno
  · rw [if_neg hopen]
    have hno : ¬k.fileSystem.isOpen b.str = true := mt FileSystem.isOpen_iff.mp hopen
    obtain ⟨k', hret, hr2, hfiles⟩ :=
      ret_returns (if (FileSystem.remove k.host env b.str).1 then 0 else -1)
        { k with machine := m', host := (FileSystem.remove k.host env b.str).2 }
    refine ⟨k', ?_, fun hyes => absurd hyes hno, fun _ => ⟨hr2, hfiles⟩⟩
    rw [← hret]
    refine (bind_of_ok rfl).trans ?_
    cases (FileSystem.remove k.host env b.str).1 <;> rfl

end Sys

/-- The call that has taken slot `i`, after call `c` with result `r2`. -/
def Call.taker (c : Call) (r2 : Int) (i : Fin 20) (o : Option Call) : Option Call :=
  let r := c.machine.registers
  if (r 2 = 6 ∨ r 2 = 50) ∧ r2 = (i : ℕ) then some c
  else if r 2 = 10 ∧ r2 = 0 ∧ r 4 = (i : ℕ) then none
  else o

/-- The name that a slot gets from the call: the beginning of a string, and the whole string if
it is short enough, or the word `socket`. -/
def Call.GivesName (c : Call) (name : Name) : Prop :=
  (c.machine.registers 2 = 6 ∧ c.machine.StartsWith (c.machine.registers 4) name ∧
    name.length ≤ 33 ∧ (name.length < 33 → c.machine.HoldsString (c.machine.registers 4) name)) ∨
  (c.machine.registers 2 = 50 ∧ name = Sys.socketName)

structure Traced (κ : Type) where
  world : World κ
  taker : Fin 20 → Option Call

namespace Traced
variable {κ : Type} {svc : Services κ} {t t' : Traced κ} {c : Call} {name : Name}

def start (k : Kernel κ) : Traced κ := ⟨.start k, fun _ => none⟩

def fileSystem (t : Traced κ) : FileSystem := t.world.kernel.fileSystem

def step (svc : Services κ) (t : Traced κ) (c : Call) : Option (Traced κ) :=
  (World.step svc t.world c).map fun w' =>
    ⟨w', fun i => c.taker (w'.kernel.machine.registers 2) i (t.taker i)⟩

def NoTlb (_ : Traced κ) (c : Call) : Prop := c.machine.tlb = none

instance (t : Traced κ) (c : Call) : Decidable (NoTlb t c) :=
  decidable_of_iff (c.machine.tlb.isNone = true) Option.isNone_iff_eq_none

end Traced

namespace World
variable {κ : Type} {svc : Services κ} {w w' : World κ} {c : Call}

theorem step_kernel (h : step svc w c = some w') : ∃ u,
    Sys.exceptionHandler svc c.env .syscallException (c.enter w.kernel) = .ok (u, w'.kernel) := by
  unfold step at h
  split at h
  · cases h
  · next u k' hk' =>
    cases h
    exact ⟨u, hk'⟩

/-- What a call does to the names in the table. -/
inductive NameEffect (c : Call) (r2 : Int) (x x' : Files) : Prop
  | takes (name : Name) (j : Fin 20) (f : OpenFile) :
      c.machine.registers 2 = 6 ∨ c.machine.registers 2 = 50 → r2 = (j : ℕ) →
      Files.Opened j f name x x' → c.GivesName name → NameEffect c r2 x x'
  | closes (j : Fin 20) : c.machine.registers 2 = 10 → r2 = 0 →
      (j : Int) = c.machine.registers 4 → Files.Closed j x x' → NameEffect c r2 x x'
  | same : (∀ i o, c.taker r2 i o = o) → Files.SameTable x x' → NameEffect c r2 x x'

theorem taker_failed (i : Fin 20) (o : Option Call) : c.taker (-1) i o = o := by
  have hne : ¬(-1 : Int) = (i : ℕ) := by omega
  simp [Call.taker, hne]

theorem taker_same {r2 : Int} (h6 : c.machine.registers 2 ≠ 6) (h50 : c.machine.registers 2 ≠ 50)
    (h10 : c.machine.registers 2 ≠ 10) (i : Fin 20) (o : Option Call) : c.taker r2 i o = o := by
  simp [Call.taker, h6, h50, h10]

theorem nameEffect_of_takesAs {type r2 : Int} {name : Name} {x x' : Files}
    (hnumber : c.machine.registers 2 = 6 ∨ c.machine.registers 2 = 50)
    (h : Sys.TakesAs type name r2 x x') (hname : c.GivesName name) : NameEffect c r2 x x' := by
  rcases h with ⟨rfl, rfl⟩ | ⟨j, f, hr2, -, hopened, -⟩
  · exact .same taker_failed (.refl _)
  · exact .takes name j f hnumber hr2 hopened hname

theorem step_names (hx : w.files.Ok) (htlb : c.machine.tlb = none)
    (h : step svc w c = some w') :
    NameEffect c (w'.kernel.machine.registers 2) w.files w'.files := by
  obtain ⟨u, hk⟩ := step_kernel h
  have hk : Sys.syscall svc c.env (c.machine.registers 2) (c.enter w.kernel) = .ok (u, w'.kernel) :=
    hk
  -- only `Open`, `Socket` and `Close` write to the array of names
  cases (step_effect hx h).1 with
  | opens h6 _ _ =>
    rw [h6] at hk
    obtain ⟨b, k₁, hread, htakes, -⟩ := Sys.scOpen_named hk
    have hread : Sys.user2System c.env _ ((33 : ℕ) : Int) _ = _ := hread
    obtain ⟨hstarts, hlen, hholds⟩ :=
      Sys.user2System_ok (k := c.enter w.kernel) htlb (by decide) hread
    exact nameEffect_of_takesAs (.inl h6) htakes (.inl ⟨h6, hstarts, hlen, hholds⟩)
  | sockets h50 _ =>
    rw [h50] at hk
    exact nameEffect_of_takesAs (.inr h50) (Sys.scSocket_spec (k := c.enter w.kernel) hk)
      (.inr ⟨h50, rfl⟩)
  | closes h10 hcloses =>
    rcases hcloses with ⟨hr2, hfiles⟩ | ⟨j, hj, hr2, hclosed⟩
    · rw [hr2, hfiles]
      exact .same taker_failed (.refl _)
    · exact .closes j h10 hr2 hj hclosed
  | transfers h78 htransfers =>
    refine .same (taker_same (by omega) (by omega) (by omega)) ?_
    cases htransfers with
    | none hq _ => exact hq.toSameTable
    | some i o _ _ _ hm _ => exact hm.toSameTable
  | seeks h9 hseeks =>
    refine .same (taker_same (by omega) (by omega) (by omega)) ?_
    cases hseeks with
    | refused hq _ _ => exact hq.toSameTable
    | beyond i l _ _ _ _ hm => exact hm.toSameTable
    | done i l _ _ _ _ _ hm => exact hm.toSameTable
  | other hne hq =>
    simp only [List.mem_cons, List.not_mem_nil, or_false, not_or] at hne
    exact .same (taker_same hne.1 hne.2.2.2.2.2 hne.2.2.2.2.1) hq.toSameTable

end World

namespace Traced
variable {κ : Type} {svc : Services κ} {t t' : Traced κ} {c : Call} {name : Name}

/-- A slot that is not the console's is taken exactly if a call has taken it, and has the name
that this call gives. -/
def SlotOk (i : Fin 20) (live : Bool) (name : Name) (taker : Option Call) : Prop :=
  ((2 : ℕ) ≤ i → live = true → taker.isSome) ∧
    ∀ c, taker = some c → (2 : ℕ) ≤ i ∧ live = true ∧ c.GivesName name

structure Named (t : Traced κ) : Prop where
  files : t.world.files.Ok
  stdin : t.fileSystem.filename 0 = FileSystem.stdinName
  stdout : t.fileSystem.filename 1 = FileSystem.stdoutName
  slots : ∀ i, SlotOk i (t.fileSystem.openfile i).isSome (t.fileSystem.filename i) (t.taker i)

theorem new_names {h : Host} {env₁ env₂ env₃ env₄ : Env} {junk : Int} {x : Files}
    (hnew : FileSystem.new h env₁ env₂ env₃ env₄ junk = .ok x) :
    x.1.filename 0 = FileSystem.stdinName ∧ x.1.filename 1 = FileSystem.stdoutName := by
  obtain ⟨h₁, -, hnew⟩ := except_bind_ok hnew
  obtain ⟨h₂, -, hnew⟩ := except_bind_ok hnew
  split at hnew
  · cases hnew
  · split at hnew
    · cases hnew
    · cases hnew
      exact ⟨rfl, rfl⟩

theorem named_start {k : Kernel κ} (hk : World.Started k) : Named (start k) := by
  obtain ⟨hok, hfree⟩ := hk.ok
  obtain ⟨_, _, _, _, _, _, hnew⟩ := hk
  obtain ⟨h0, h1⟩ := new_names hnew
  refine ⟨hok, h0, h1, fun i => ⟨fun hi hlive => ?_, fun c hc => by cases hc⟩⟩
  have hlive : (k.fileSystem.openfile i).isSome := hlive
  rw [hfree i hi] at hlive
  cases hlive

theorem Named.touch (h : Named t) {w' : World κ} {taker : Fin 20 → Option Call} {j : Fin 20}
    (hok : w'.files.Ok) (huser : (2 : ℕ) ≤ j)
    (hother : ∀ i ≠ j, w'.files.1.openfile i = t.fileSystem.openfile i ∧
      w'.files.1.filename i = t.fileSystem.filename i)
    (htaker : ∀ i ≠ j, taker i = t.taker i)
    (hself : SlotOk j (w'.files.1.openfile j).isSome (w'.files.1.filename j) (taker j)) :
    Named ⟨w', taker⟩ := by
  have hne : ∀ i : Fin 20, (i : ℕ) < 2 → i ≠ j := by
    rintro i hi rfl
    omega
  refine ⟨hok, (hother 0 (hne 0 (by decide))).2.trans h.stdin,
    (hother 1 (hne 1 (by decide))).2.trans h.stdout, fun i => ?_⟩
  show SlotOk i (w'.files.1.openfile i).isSome (w'.files.1.filename i) (taker i)
  by_cases hi : i = j
  · rw [hi]
    exact hself
  · rw [htaker i hi, (hother i hi).1, (hother i hi).2]
    exact h.slots i

theorem named_step (h : Named t) (htlb : c.machine.tlb = none) (hs : step svc t c = some t') :
    Named t' := by
  obtain ⟨w', hw, rfl⟩ := Option.map_eq_some_iff.mp hs
  have hok : w'.files.Ok := (World.step_effect h.files hw).1.ok h.files
  cases World.step_names h.files htlb hw with
  | takes name j f hnumber hr2 hopened hname =>
    have huser : (2 : ℕ) ≤ j := h.files.user_slot hopened.free
    refine h.touch hok huser (fun i hi => hopened.other hi) (fun i hi => ?_) ?_
    · have hne : ¬(j : ℕ) = i := fun hji => hi (Fin.ext hji.symm)
      have h10 : c.machine.registers 2 ≠ 10 := by omega
      simp [Call.taker, hr2, hne, h10]
    · have htaker : c.taker (w'.kernel.machine.registers 2) j (t.taker j) = some c :=
        if_pos ⟨hnumber, hr2⟩
      rw [htaker, hopened.self.1, hopened.self.2]
      refine ⟨fun _ _ => rfl, fun c' hc' => ?_⟩
      cases hc'
      exact ⟨huser, rfl, hname⟩
  | closes j h10 hr2 hj hclosed =>
    refine h.touch hok hclosed.user (fun i hi => hclosed.other hi) (fun i hi => ?_) ?_
    · have hne : ¬c.machine.registers 4 = (i : ℕ) := fun hji => hi (Fin.ext (by omega))
      simp [Call.taker, h10, hne]
    · have htaker : c.taker (w'.kernel.machine.registers 2) j (t.taker j) = none := by
        simp [Call.taker, h10, hr2, hj]
      rw [htaker, hclosed.self.1]
      exact ⟨fun _ => nofun, fun _ => nofun⟩
  | same htaker hsame =>
    have hnames : w'.kernel.fileSystem.filename = t.fileSystem.filename := hsame.filename
    refine ⟨hok, (congrFun hnames 0).trans h.stdin, (congrFun hnames 1).trans h.stdout, fun i => ?_⟩
    show SlotOk i (w'.files.1.openfile i).isSome (w'.files.1.filename i)
      (c.taker (w'.kernel.machine.registers 2) i (t.taker i))
    rw [htaker, Files.isSome_eq hsame, hsame.filename]
    exact h.slots i

theorem named_reach {k : Kernel κ} (hk : World.Started k)
    (ht : Reach (step svc) NoTlb (start k) t) : Named t :=
  ht.invariant (named_start hk) fun _ _ _ h htlb hs => named_step h htlb hs

def OpenedAs (t : Traced κ) (name : Name) : Prop :=
  ∃ i c, (t.fileSystem.openfile i).isSome ∧ t.taker i = some c ∧ c.machine.registers 2 = 6 ∧
    c.machine.HoldsString (c.machine.registers 4) name

/-- A descriptor in use comes from an `Open` with a longer string, of which the name is all that
the kernel has. -/
def OpenedLonger (t : Traced κ) (name : Name) : Prop :=
  ∃ i c, (t.fileSystem.openfile i).isSome ∧ t.taker i = some c ∧ c.machine.registers 2 = 6 ∧
    name.length = 33 ∧ c.machine.StartsWith (c.machine.registers 4) name ∧
    ¬c.machine.HoldsString (c.machine.registers 4) name

def HasSocket (t : Traced κ) : Prop :=
  ∃ i c, (t.fileSystem.openfile i).isSome ∧ t.taker i = some c ∧ c.machine.registers 2 = 50

def IsConsole (name : Name) : Prop := name = FileSystem.stdinName ∨ name = FileSystem.stdoutName

theorem IsConsole.length_ne (h : IsConsole name) : name.length ≠ 33 := by
  rcases h with rfl | rfl <;> decide +kernel

theorem socketName_not_console : ¬IsConsole Sys.socketName := by
  unfold IsConsole
  decide +kernel

theorem GivesName.eq_of_holds {n : Name} (hn : c.GivesName n) (h6 : c.machine.registers 2 = 6)
    (hname : c.machine.HoldsString (c.machine.registers 4) name) (hlen : name.length ≤ 33) :
    n = name := by
  rcases hn with ⟨-, hstarts, hle, hholds⟩ | ⟨h50, -⟩
  · by_cases hlt : n.length < 33
    · exact hname.eq (hholds hlt)
    · exact (hname.starts_within hstarts).eq_of_length_le (by omega)
  · omega

theorem GivesName.eq_of_starts {n : Name} (hn : c.GivesName n) (h6 : c.machine.registers 2 = 6)
    (hname : c.machine.StartsWith (c.machine.registers 4) name) (hlen : name.length = 33) :
    n = name := by
  rcases hn with ⟨-, hstarts, hle, hholds⟩ | ⟨h50, -⟩
  · by_cases hlt : n.length < 33
    · have hle := ((hholds hlt).starts_within hname).length_le
      omega
    · exact hstarts.eq_of_length hname (by omega)
  · omega

/-- What the flag `isOpen` tells. -/
theorem isOpen_iff (h : Named t) (hne : name ≠ []) (hlen : name.length ≤ 33) :
    t.fileSystem.isOpen name = true ↔ t.OpenedAs name ∨ IsConsole name ∨
      t.OpenedLonger name ∨ name = Sys.socketName ∧ t.HasSocket := by
  rw [FileSystem.isOpen_iff]
  constructor
  · rintro ⟨i, hi⟩
    have hlive : (t.fileSystem.openfile i).isSome := (h.files.named i).mpr (hi ▸ hne)
    by_cases huser : (2 : ℕ) ≤ i
    · obtain ⟨c, hc⟩ := Option.isSome_iff_exists.mp ((h.slots i).1 huser hlive)
      obtain ⟨-, -, hname⟩ := (h.slots i).2 c hc
      rw [← hi] at hname
      rcases hname with ⟨h6, hstarts, hle, hholds⟩ | ⟨h50, hsocket⟩
      · by_cases hwhole : c.machine.HoldsString (c.machine.registers 4) name
        · exact .inl ⟨i, c, hlive, hc, h6, hwhole⟩
        · have h33 : name.length = 33 := by
            by_contra h33
            exact hwhole (hholds (by omega))
          exact .inr (.inr (.inl ⟨i, c, hlive, hc, h6, h33, hstarts, hwhole⟩))
      · exact .inr (.inr (.inr ⟨hsocket, i, c, hlive, hc, h50⟩))
    · have hcases : i = 0 ∨ i = 1 := by omega
      rcases hcases with rfl | rfl
      · exact .inr (.inl (.inl (hi.trans h.stdin)))
      · exact .inr (.inl (.inr (hi.trans h.stdout)))
  · rintro (⟨i, c, -, hc, h6, hname⟩ | hconsole | ⟨i, c, -, hc, h6, h33, hstarts, -⟩ |
      ⟨hsocket, i, c, -, hc, h50⟩)
    · exact ⟨i, (GivesName.eq_of_holds ((h.slots i).2 c hc).2.2 h6 hname hlen).symm⟩
    · rcases hconsole with hin | hout
      · exact ⟨0, hin.trans h.stdin.symm⟩
      · exact ⟨1, hout.trans h.stdout.symm⟩
    · exact ⟨i, (GivesName.eq_of_starts ((h.slots i).2 c hc).2.2 h6 hstarts h33).symm⟩
    · rcases ((h.slots i).2 c hc).2.2 with ⟨h6, -⟩ | ⟨-, hname⟩
      · omega
      · exact ⟨i, hsocket.trans hname.symm⟩

theorem step_remove (htlb : c.machine.tlb = none) (hremove : c.machine.registers 2 = 5)
    (hname : c.machine.HoldsString (c.machine.registers 4) name) (hne : name ≠ [])
    (hlen : name.length ≤ 33) :
    ∃ t', step svc t c = some t' ∧ Removal (t.fileSystem.isOpen name) c.env name
      (t'.world.kernel.machine.registers 2) t.world.files t'.world.files := by
  obtain ⟨k', hk', hremoval⟩ :=
    Sys.scRemove_spec (k := c.enter t.world.kernel) htlb hname hne hlen
  have hcall : Sys.exceptionHandler svc c.env .syscallException (c.enter t.world.kernel) =
      .ok ((), k') := by
    show Sys.syscall svc c.env (c.machine.registers 2) _ = _
    rw [hremove]
    exact hk'
  unfold step World.step
  rw [hcall]
  exact ⟨_, rfl, hremoval⟩

/-- `Remove` refuses just the names of open files and the console's as long as no socket is there
for the name `socket`, and no file opened with a longer string for its beginning. -/
theorem remove_refuses_iff {k : Kernel κ} (hk : World.Started k)
    (ht : Reach (step svc) NoTlb (start k) t) (htlb : c.machine.tlb = none)
    (hremove : c.machine.registers 2 = 5)
    (hname : c.machine.HoldsString (c.machine.registers 4) name) (hne : name ≠ [])
    (hlen : name.length ≤ 33) :
    (∃ t', step svc t c = some t' ∧ Removal (t.fileSystem.isOpen name) c.env name
      (t'.world.kernel.machine.registers 2) t.world.files t'.world.files) ∧
    ((t.fileSystem.isOpen name = true ↔ t.OpenedAs name ∨ IsConsole name) ↔
      (t.OpenedLonger name ∨ name = Sys.socketName ∧ t.HasSocket → t.OpenedAs name)) := by
  refine ⟨step_remove htlb hremove hname hne hlen, ?_⟩
  rw [isOpen_iff (named_reach hk ht) hne hlen]
  constructor
  · intro hiff hclash
    refine (hiff.mp (.inr (.inr hclash))).resolve_right fun hconsole => ?_
    rcases hclash with ⟨_, _, _, _, _, h33, _⟩ | ⟨rfl, -⟩
    · exact hconsole.length_ne h33
    · exact socketName_not_console hconsole
  · intro hclash
    refine ⟨?_, fun hopen => hopen.elim .inl fun hc => .inr (.inl hc)⟩
    rintro (hopen | hconsole | hother)
    · exact .inl hopen
    · exact .inr hconsole
    · exact .inl (hclash hother)

def nameCall (number : Int) (name : Name) (env : Env) : Call where
  machine :=
    { mainMemory := fun a => name.getD a.toNat 0
      registers := fun i => if i = 2 then number else 0
      tlb := none
      pageTable := some [⟨0, 0, true, false, false, false⟩]
      pageTableSize := 1 }
  env := env
  input := []

/-- A file that is open cannot be removed. -/
theorem remove_refuses_iff_open : ∃ t : Traced Unit,
    Reach (step Sys.zeroServices) NoTlb (start World.smallKernel) t ∧
      t.fileSystem.isOpen [97] = true ∧
      (∃ t', step Sys.zeroServices t (nameCall 5 [97] Sys.noEnv) = some t' ∧
        Removal (t.fileSystem.isOpen [97]) Sys.noEnv [97]
          (t'.world.kernel.machine.registers 2) t.world.files t'.world.files) ∧
      ((t.fileSystem.isOpen [97] = true ↔ t.OpenedAs [97] ∨ IsConsole [97]) ↔
        (t.OpenedLonger [97] ∨ [97] = Sys.socketName ∧ t.HasSocket → t.OpenedAs [97])) := by
  have hrun : (exec (step Sys.zeroServices) NoTlb (start World.smallKernel)
      [nameCall 6 [97] (World.grant 5)]).map (fun t => t.fileSystem.isOpen [97]) = some true := by
    decide +kernel
  obtain ⟨t, ht, hopen⟩ := Option.map_eq_some_iff.mp hrun
  have hr := reach_of_exec _ ht
  have hname : (nameCall 5 [97] Sys.noEnv).machine.HoldsString 0 [97] := ⟨by decide, rfl, rfl⟩
  exact ⟨t, hr, hopen, remove_refuses_iff (c := nameCall 5 [97] Sys.noEnv)
    World.smallKernel_started hr rfl rfl hname (by decide) (by decide)⟩

def unlinking : Env := { Sys.noEnv with unlinks := true }

/-- `Create("socket")`, `Socket()`, `Remove("socket")`: the file stays, and was never opened. -/
theorem socket_name_refused : ∃ t t' : Traced Unit,
    Reach (step Sys.zeroServices) NoTlb (start World.smallKernel) t ∧
      (t.world.kernel.host.dir Sys.socketName).isSome ∧
      ¬(t.OpenedAs Sys.socketName ∨ IsConsole Sys.socketName) ∧
      t.fileSystem.isOpen Sys.socketName = true ∧
      step Sys.zeroServices t (nameCall 5 Sys.socketName unlinking) = some t' ∧
      t'.world.kernel.machine.registers 2 = -1 ∧
      (t'.world.kernel.host.dir Sys.socketName).isSome := by
  have hrun : (exec (step Sys.zeroServices) NoTlb (start World.smallKernel)
      [nameCall 4 Sys.socketName (World.grant 5), nameCall 50 [] (World.grant 5)]).map (fun t =>
        ((t.world.kernel.host.dir Sys.socketName).isSome, t.fileSystem.isOpen Sys.socketName,
          decide (∀ i, (t.taker i).map (fun c => c.machine.registers 2) ≠ some 6),
          (step Sys.zeroServices t (nameCall 5 Sys.socketName unlinking)).map fun t' =>
            (t'.world.kernel.machine.registers 2,
              (t'.world.kernel.host.dir Sys.socketName).isSome))) =
      some (true, true, true, some (-1, true)) := by
    decide +kernel
  obtain ⟨t, ht, hfacts⟩ := Option.map_eq_some_iff.mp hrun
  simp only [Prod.mk.injEq, decide_eq_true_eq] at hfacts
  obtain ⟨hfile, hopen, hnone, hstep⟩ := hfacts
  obtain ⟨t', ht', hresult⟩ := Option.map_eq_some_iff.mp hstep
  simp only [Prod.mk.injEq] at hresult
  refine ⟨t, t', reach_of_exec _ ht, hfile, ?_, hopen, ht', hresult.1, hresult.2⟩
  rintro (⟨i, c, -, hc, h6, -⟩ | hconsole)
  · refine hnone i ?_
    rw [hc, ← h6]
    rfl
  · exact socketName_not_console hconsole

end Traced
end Nachos
