import Nachos.FileCalls

namespace Nachos
open TwosComplement Programs GuardedRun

namespace Sys
variable {κ : Type} {k k' : Kernel κ} {env : Env} {svc : Services κ}
open Files (Quiet)

/-- What a system call that returns has done to the files, by its number. -/
inductive Effect (r : ℕ → Int) (r2 : Int) (x x' : Files) : Prop
  | opens : r 2 = 6 → Takes (r 5) r2 x x' → (r2 ≠ -1 → r 5 = 0 ∨ r 5 = 1) → Effect r r2 x x'
  | sockets : r 2 = 50 → Takes 2 r2 x x' → Effect r r2 x x'
  | closes : r 2 = 10 → Closes (r 4) r2 x x' → Effect r r2 x x'
  | transfers : r 2 = 7 ∨ r 2 = 8 → Transfers (fun _ _ => True) (r 6) r2 x x' →
      Effect r r2 x x'
  | seeks : r 2 = 9 → Seeks (r 4) (r 5) r2 x x' → Effect r r2 x x'
  | other : r 2 ∉ ([6, 7, 8, 9, 10, 50] : List Int) → Quiet x x' → Effect r r2 x x'

theorem effect_of_leaves {f : Sys κ Unit} {u : Unit} (hf : LeavesFiles f)
    (hr : regs k 2 ∉ ([6, 7, 8, 9, 10, 50] : List Int)) (h : f k = .ok (u, k')) :
    Effect (regs k) (regs k' 2) (files k) (files k') := .other hr (hf k u k' h)

theorem syscall_effect (hx : Files.Ok (files k)) {u : Unit}
    (h : exceptionHandler svc env .syscallException k = .ok (u, k')) :
    Effect (regs k) (regs k' 2) (files k) (files k') := by
  have h : syscall svc env (regs k 2) k = .ok (u, k') := h
  have hmem : ∀ n : Int, n ∉ ([6, 7, 8, 9, 10, 50] : List Int) → regs k 2 = n →
      regs k 2 ∉ ([6, 7, 8, 9, 10, 50] : List Int) := fun n hn hr => hr ▸ hn
  generalize hf : syscall svc env (regs k 2) = f at h
  unfold syscall at hf
  split at hf <;> subst hf
  · cases h
  · next hr => exact effect_of_leaves (leavesFiles_scExit svc) (hmem _ (by decide) hr) h
  · next hr => exact effect_of_leaves (leavesFiles_scExec svc) (hmem _ (by decide) hr) h
  · next hr => exact effect_of_leaves (leavesFiles_scJoin svc) (hmem _ (by decide) hr) h
  · next hr => exact effect_of_leaves leavesFiles_scCreate (hmem _ (by decide) hr) h
  · next hr => exact effect_of_leaves leavesFiles_scRemove (hmem _ (by decide) hr) h
  · next hr => exact .opens hr (scOpen_spec h).1 (scOpen_spec h).2
  · next hr => exact .transfers (.inl hr) (scRead_spec hx h).weaken
  · next hr => exact .transfers (.inr hr) (scWrite_spec hx h).weaken
  · next hr => exact .seeks hr (scSeek_spec hx h)
  · next hr => exact .closes hr (scClose_spec h)
  · next hr => exact effect_of_leaves (leavesFiles_scCreateSemaphore svc) (hmem _ (by decide) hr) h
  · next hr => exact effect_of_leaves (leavesFiles_semCall svc.wait) (hmem _ (by decide) hr) h
  · next hr => exact effect_of_leaves (leavesFiles_semCall svc.signal) (hmem _ (by decide) hr) h
  · next hr => exact effect_of_leaves leavesFiles_scAdd (hmem _ (by decide) hr) h
  · next hr => exact effect_of_leaves leavesFiles_scPrintString (hmem _ (by decide) hr) h
  · next hr => exact effect_of_leaves leavesFiles_scReadString (hmem _ (by decide) hr) h
  · next hr => exact effect_of_leaves leavesFiles_scPrintInt (hmem _ (by decide) hr) h
  · next hr => exact .sockets hr (scSocket_spec h).takes
  · next hr => exact .other (hmem _ (by decide) hr) (scConnect_quiet h)
  · next hr => exact .other (hmem _ (by decide) hr) (scSend_quiet hx h)
  · next hr => exact .other (hmem _ (by decide) hr) (scReceive_quiet hx h)
  · next hr => exact effect_of_leaves (leavesFiles_scExecV svc) (hmem _ (by decide) hr) h
  · cases h

theorem Effect.ok {r : ℕ → Int} {r2 : Int} {x x' : Files} (hx : x.Ok) (h : Effect r r2 x x') :
    x'.Ok := by
  cases h with
  | opens _ h _ | sockets _ h =>
    rcases h with ⟨-, rfl⟩ | ⟨j, f, name, -, -, hopened, -⟩
    · exact hx
    · exact hx.opened hopened
  | closes _ h =>
    rcases h with ⟨-, rfl⟩ | ⟨j, -, -, hclosed⟩
    · exact hx
    · exact hx.closed hclosed
  | transfers _ h =>
    cases h with
    | none hq _ => exact hx.quiet hq
    | some i o _ _ _ hm _ => exact hx.moved hm
  | seeks _ h =>
    cases h with
    | refused hq _ _ => exact hx.quiet hq
    | beyond i l _ _ _ _ hm => exact hx.moved hm
    | done i l _ _ _ _ _ hm => exact hx.moved hm
  | other _ hq => exact hx.quiet hq

end Sys

inductive Origin
  | opened (mode : Int)
  | socket
  deriving DecidableEq

structure Call where
  machine : Machine
  env : Env
  input : List UInt8

namespace Call

def enter {κ : Type} (c : Call) (k : Kernel κ) : Kernel κ :=
  { k with machine := c.machine, input := c.input }

/-- Who has taken slot `i` after the call, from the registers and the result alone. -/
def origin (c : Call) (r2 : Int) (i : Fin 20) (o : Option Origin) : Option Origin :=
  let r := c.machine.registers
  if r 2 = 6 ∧ r2 = (i : ℕ) then some (.opened (r 5))
  else if r 2 = 50 ∧ r2 = (i : ℕ) then some .socket
  else if r 2 = 10 ∧ r2 = 0 ∧ r 4 = (i : ℕ) then none
  else o

/-- The position of slot `i` after the call: at the beginning for a new file, on by what
has been transferred, where a seek has set it, and else where it was. -/
def position (c : Call) (r2 : Int) (i : Fin 20) (length p : ℕ) : ℕ :=
  let r := c.machine.registers
  if r 2 = 6 ∧ r2 = (i : ℕ) then 0
  else if (r 2 = 7 ∨ r 2 = 8) ∧ r 6 = (i : ℕ) ∧ r2 ≠ -1 then p + r2.toNat
  else if r 2 = 9 ∧ r 5 = (i : ℕ) ∧ r2 ≠ -1 then if r 4 = -1 then length else (r 4).toNat
  else p

end Call

/-- All processes share the table of open files, so the machine is given anew for each call.  Who
took a slot and at which position its next transfer is due is noted along the run. -/
structure World (κ : Type) where
  kernel : Kernel κ
  origin : Fin 20 → Option Origin
  position : Fin 20 → ℕ

namespace World
variable {κ : Type} {svc : Services κ} {w w' : World κ} {c : Call}

def start (k : Kernel κ) : World κ := ⟨k, fun _ => none, fun _ => 0⟩

def files (w : World κ) : Files := (w.kernel.fileSystem, w.kernel.host)

/-- One system call; there is no next state if it does not return. -/
def step (svc : Services κ) (w : World κ) (c : Call) : Option (World κ) :=
  match Sys.exceptionHandler svc c.env .syscallException (c.enter w.kernel) with
  | .error _ => none
  | .ok (_, k') =>
    let r2 := k'.machine.registers 2
    some ⟨k', fun i => c.origin r2 i (w.origin i),
      fun i => c.position r2 i ((w.files.fileLength i).getD 0) (w.position i)⟩

/-- The kernel right after `FileSystem()`. -/
def Started (k : Kernel κ) : Prop :=
  ∃ h env₁ env₂ env₃ env₄ junk,
    FileSystem.new h env₁ env₂ env₃ env₄ junk = .ok (k.fileSystem, k.host)

theorem openAny_ok {h h' : Host} {env : Env} {name : Name} {junk : Int} {f : OpenFile}
    (ho : FileSystem.openAny h env name junk = (some f, h')) :
    ∃ fd n, f = .ofFile fd junk ∧ h.fds fd = none ∧ ((h.data n).length : Int) ≤ intMax ∧
      h' = h.setFd fd (some (.file n 0)) := by
  unfold FileSystem.openAny at ho
  rcases h.openRW_cases env name with hr | ⟨fd, n, hfd, hlen, hr⟩ <;> rw [hr] at ho <;> cases ho
  exact ⟨fd, n, rfl, hfd, hlen, rfl⟩

theorem console_ok {x : Files} {f₀ f₁ : OpenFile} {n₀ n₁ : ℕ}
    (h0 : x.1.openfile 0 = some f₀) (h1 : x.1.openfile 1 = some f₁)
    (hfree : ∀ i, i ≠ 0 → i ≠ 1 → x.1.openfile i = none)
    (hname : ∀ i, x.1.filename i ≠ [] ↔ i = 0 ∨ i = 1)
    (ht₀ : f₀.type = 1 ∧ f₀.socketH = false) (ht₁ : f₁.type = 0 ∧ f₁.socketH = false)
    (hne : f₀.file ≠ f₁.file) (hfd₀ : x.2.fds f₀.file = some (.file n₀ 0))
    (hfd₁ : x.2.fds f₁.file = some (.file n₁ 0))
    (hlen₀ : ((x.2.data n₀).length : Int) ≤ intMax)
    (hlen₁ : ((x.2.data n₁).length : Int) ≤ intMax) : x.Ok := by
  -- there are no other files than the two of the console
  have hcases : ∀ {i f}, x.1.openfile i = some f → (i = 0 ∧ f = f₀) ∨ (i = 1 ∧ f = f₁) := by
    intro i f hf
    by_cases hi0 : i = 0
    · subst hi0
      exact .inl ⟨rfl, Option.some.inj (hf.symm.trans h0)⟩
    by_cases hi1 : i = 1
    · subst hi1
      exact .inr ⟨rfl, Option.some.inj (hf.symm.trans h1)⟩
    · cases (hfree i hi0 hi1).symm.trans hf
  constructor
  · rw [h0]
    rfl
  · rw [h1]
    rfl
  · intro i
    rw [hname, Option.isSome_iff_exists]
    constructor
    · rintro ⟨f, hf⟩
      exact (hcases hf).imp And.left And.left
    · rintro (rfl | rfl)
      · exact ⟨f₀, h0⟩
      · exact ⟨f₁, h1⟩
  · intro i f hf
    rcases hcases hf with ⟨-, rfl⟩ | ⟨-, rfl⟩
    · exact .inr (.inl ht₀.1)
    · exact .inl ht₁.1
  · intro i f hf
    rcases hcases hf with ⟨-, rfl⟩ | ⟨-, rfl⟩
    · rw [ht₀.1, ht₀.2]
      decide
    · rw [ht₁.1, ht₁.2]
      decide
  · intro i f hf
    unfold Host.Backs
    rcases hcases hf with ⟨-, rfl⟩ | ⟨-, rfl⟩
    · rw [hfd₀, ht₀.1]
      exact ⟨by decide, by decide, hlen₀⟩
    · rw [hfd₁, ht₁.1]
      exact ⟨by decide, by decide, hlen₁⟩
  · intro i j f g hf hg hfile
    rcases hcases hf with ⟨rfl, rfl⟩ | ⟨rfl, rfl⟩ <;> rcases hcases hg with ⟨rfl, rfl⟩ | ⟨rfl, rfl⟩
    · rfl
    · exact absurd hfile hne
    · exact absurd hfile.symm hne
    · rfl

/-- `FileSystem()` leaves the console's two files and nothing else in the table. -/
theorem new_ok {h : Host} {env₁ env₂ env₃ env₄ : Env} {junk : Int} {x : Files}
    (hnew : FileSystem.new h env₁ env₂ env₃ env₄ junk = .ok x) :
    x.Ok ∧ ∀ i : Fin 20, (2 : ℕ) ≤ i → x.1.openfile i = none := by
  obtain ⟨h₁, -, hnew⟩ := except_bind_ok hnew
  obtain ⟨h₂, -, hnew⟩ := except_bind_ok hnew
  split at hnew
  · cases hnew
  · next f₀ h₃ hf₀ =>
    split at hnew
    · cases hnew
    · next f₁ h₄ hf₁ =>
      obtain ⟨fd₀, n₀, rfl, hfd₀, hlen₀, rfl⟩ := openAny_ok hf₀
      obtain ⟨fd₁, n₁, rfl, hfd₁, hlen₁, rfl⟩ := openAny_ok hf₁
      cases hnew
      -- the host does not give a descriptor that is in use
      have hne : fd₀ ≠ fd₁ := by
        rintro rfl
        rw [Host.fds_setFd] at hfd₁
        cases hfd₁
      have hfree : ∀ i : Fin 20, i ≠ 0 → i ≠ 1 → (((FileSystem.mk (fun _ => none) fun _ => [])
          |>.setFile 0 (some { OpenFile.ofFile fd₀ junk with type := 1 })
          |>.setName 0 FileSystem.stdinName
          |>.setFile 1 (some { OpenFile.ofFile fd₁ junk with type := 0 })
          |>.setName 1 FileSystem.stdoutName).openfile i) = none := by
        intro i hi0 hi1
        simp [FileSystem.setFile, FileSystem.setName, hi0, hi1]
      refine ⟨console_ok rfl rfl hfree ?_ ⟨rfl, rfl⟩ ⟨rfl, rfl⟩ hne ?_ (Host.fds_setFd _)
        hlen₀ hlen₁, fun i hi => hfree i ?_ ?_⟩
      · intro i
        by_cases hi1 : i = 1
        · subst hi1
          exact iff_of_true (show FileSystem.stdoutName ≠ [] by decide +kernel) (.inr rfl)
        by_cases hi0 : i = 0
        · subst hi0
          exact iff_of_true (show FileSystem.stdinName ≠ [] by decide +kernel) (.inl rfl)
        · simp [FileSystem.setFile, FileSystem.setName, hi0, hi1]
      · change Function.update (Function.update h₂.fds fd₀ _) fd₁ _ fd₀ = _
        rw [Function.update_of_ne hne, Function.update_self]
      · rintro rfl
        cases hi
      · rintro rfl
        cases hi with
        | step h => cases h

theorem step_effect (hx : w.files.Ok) (h : step svc w c = some w') :
    Sys.Effect c.machine.registers (w'.kernel.machine.registers 2) w.files w'.files ∧
      (∀ i, w'.origin i = c.origin (w'.kernel.machine.registers 2) i (w.origin i)) ∧
      ∀ i, w'.position i = c.position (w'.kernel.machine.registers 2) i
        ((w.files.fileLength i).getD 0) (w.position i) := by
  unfold step at h
  split at h
  · cases h
  · next k' hk' =>
    cases h
    exact ⟨Sys.syscall_effect (k := c.enter w.kernel) hx hk', fun _ => rfl, fun _ => rfl⟩

theorem Started.ok {k : Kernel κ} (h : Started k) : (start k).files.Ok ∧
    ∀ i : Fin 20, (2 : ℕ) ≤ i → k.fileSystem.openfile i = none := by
  obtain ⟨_, _, _, _, _, _, hnew⟩ := h
  exact new_ok hnew

/-- Along every run the table and the host belong together. -/
theorem files_ok {k : Kernel κ} (hk : Started k) {ok : World κ → Call → Prop}
    (hw : Reach (step svc) ok (start k) w) : w.files.Ok :=
  hw.invariant (I := fun w => w.files.Ok) hk.ok.1 fun _ _ _ hx _ hs => (step_effect hx hs).1.ok hx

/-- The type of a live slot is that of the call which took it. -/
def Typed (w : World κ) : Prop :=
  ∀ (i : Fin 20) f, (2 : ℕ) ≤ i → w.kernel.fileSystem.openfile i = some f →
    (w.origin i = some .socket ∧ f.type = 2) ∨
      ∃ mode, w.origin i = some (.opened mode) ∧ (mode = 0 ∨ mode = 1) ∧ f.type = mode

theorem origin_same {r2 : Int} {i : Fin 20} {o : Option Origin}
    (h6 : c.machine.registers 2 ≠ 6) (h50 : c.machine.registers 2 ≠ 50)
    (h10 : c.machine.registers 2 ≠ 10) : c.origin r2 i o = o := by
  simp only [Call.origin, h6, h50, h10, false_and, if_false]

theorem origin_failed {i : Fin 20} {o : Option Origin} : c.origin (-1) i o = o := by
  have h : ¬(-1 : Int) = (i : ℕ) := by omega
  simp [Call.origin, h]

theorem typed_sameTable (h : w.Typed) (hs : Files.SameTable w.files w'.files)
    (horigin : ∀ i, w'.origin i = w.origin i) : w'.Typed := by
  intro i f' hi hf'
  obtain ⟨f, hf, hcore⟩ := hs.before hf'
  rw [horigin, show f'.type = f.type from congrArg (·.2.1) hcore.symm]
  exact h i f hi hf

theorem typed_opened (h : w.Typed) {j : Fin 20} {f : OpenFile} {name : Name}
    (hopened : Files.Opened j f name w.files w'.files)
    (hother : ∀ i, i ≠ j → w'.origin i = w.origin i)
    (hself : (w'.origin j = some .socket ∧ f.type = 2) ∨
      ∃ mode, w'.origin j = some (.opened mode) ∧ (mode = 0 ∨ mode = 1) ∧ f.type = mode) :
    w'.Typed := by
  intro i g hi hg
  by_cases hij : i = j
  · subst hij
    cases hopened.self.1.symm.trans hg
    exact hself
  · rw [hother i hij]
    exact h i g hi ((hopened.other hij).1 ▸ hg)

theorem typed_closed (h : w.Typed) {j : Fin 20} (hclosed : Files.Closed j w.files w'.files)
    (hother : ∀ i, i ≠ j → w'.origin i = w.origin i) : w'.Typed := by
  intro i g hi hg
  by_cases hij : i = j
  · subst hij
    cases hclosed.self.1.symm.trans hg
  · rw [hother i hij]
    exact h i g hi ((hclosed.other hij).1 ▸ hg)

theorem typed_step (hx : w.files.Ok) (h : w.Typed) (hs : step svc w c = some w') : w'.Typed := by
  obtain ⟨heffect, horigin, -⟩ := step_effect hx hs
  -- a call that fails leaves the table and its origins as they were
  have hfailed : w'.kernel.machine.registers 2 = -1 → w'.files = w.files → w'.Typed := by
    intro hr2 hfiles
    rw [hr2] at horigin
    exact typed_sameTable h (hfiles ▸ .refl _) fun i => (horigin i).trans origin_failed
  cases heffect with
  | opens h6 htakes hmode =>
    rcases htakes with ⟨hr2, hfiles⟩ | ⟨j, f, name, hr2, htype, hopened, -⟩
    · exact hfailed hr2 hfiles
    · rw [hr2] at horigin hmode
      refine typed_opened h hopened (fun i hij => (horigin i).trans ?_) (.inr ?_)
      · have : ¬(j : ℕ) = i := fun hji => hij (Fin.ext hji.symm)
        simp [Call.origin, h6, this]
      · refine ⟨_, (horigin j).trans (if_pos ⟨h6, rfl⟩), hmode (by omega), htype⟩
  | sockets h50 htakes =>
    rcases htakes with ⟨hr2, hfiles⟩ | ⟨j, f, name, hr2, htype, hopened, -⟩
    · exact hfailed hr2 hfiles
    · rw [hr2] at horigin
      refine typed_opened h hopened (fun i hij => (horigin i).trans ?_) (.inl ⟨?_, htype⟩)
      · have : ¬(j : ℕ) = i := fun hji => hij (Fin.ext hji.symm)
        simp [Call.origin, h50, this]
      · rw [horigin]
        simp [Call.origin, h50]
  | closes h10 hcloses =>
    rcases hcloses with ⟨hr2, hfiles⟩ | ⟨j, hj, hr2, hclosed⟩
    · exact hfailed hr2 hfiles
    · refine typed_closed h hclosed fun i hij => (horigin i).trans ?_
      have : ¬(c.machine.registers 4 = (i : ℕ)) := fun hji => hij (Fin.ext (by omega))
      simp [Call.origin, h10, this]
  | transfers h78 htransfers =>
    refine typed_sameTable h ?_ fun i => (horigin i).trans
      (origin_same (by omega) (by omega) (by omega))
    cases htransfers with
    | none hq _ => exact hq.toSameTable
    | some i o _ _ _ hm _ => exact hm.toSameTable
  | seeks h9 hseeks =>
    refine typed_sameTable h ?_ fun i => (horigin i).trans
      (origin_same (by omega) (by omega) (by omega))
    cases hseeks with
    | refused hq _ _ => exact hq.toSameTable
    | beyond i l _ _ _ _ hm => exact hm.toSameTable
    | done i l _ _ _ _ _ hm => exact hm.toSameTable
  | other hne hq =>
    simp only [List.mem_cons, List.not_mem_nil, or_false, not_or] at hne
    exact typed_sameTable h hq.toSameTable fun i => (horigin i).trans
      (origin_same hne.1 hne.2.2.2.2.2 hne.2.2.2.2.1)

/-- How a call that asks for a slot ends: with a user slot that was free and is now taken,
the others being as they were, or with -1 and the table as it was. -/
def Allocates (r2 : Int) (fs fs' : FileSystem) : Prop :=
  (r2 = -1 ∧ fs' = fs) ∨ ∃ i : Fin 20, (2 : ℕ) ≤ i ∧ r2 = (i : ℕ) ∧ fs.openfile i = none ∧
    (fs'.openfile i).isSome ∧
    ∀ j ≠ i, fs'.openfile j = fs.openfile j ∧ fs'.filename j = fs.filename j

theorem allocates {r2 type : Int} {x x' : Files} (hx : x.Ok) (h : Sys.Takes type r2 x x') :
    Allocates r2 x.1 x'.1 := by
  rcases h with ⟨hr2, rfl⟩ | ⟨j, f, name, hr2, -, hopened, -⟩
  · exact .inl ⟨hr2, rfl⟩
  · exact .inr ⟨j, hx.user_slot hopened.free, hr2, hopened.free, by rw [hopened.self.1]; rfl,
      fun i hij => hopened.other hij⟩

/-- In every state of every run: a slot is taken exactly if it has a name, the console's
slots are taken, the type of every other live slot is that of the call which took it; and
every `Open` and every `Socket` takes a free slot or changes nothing. -/
theorem file_table_kept {k : Kernel κ} (hk : Started k)
    (hw : Reach (step svc) (fun _ _ => True) (start k) w) :
    (∀ i, (w.kernel.fileSystem.openfile i).isSome ↔ w.kernel.fileSystem.filename i ≠ []) ∧
      (w.kernel.fileSystem.openfile 0).isSome ∧ (w.kernel.fileSystem.openfile 1).isSome ∧
      w.Typed ∧
      ∀ c w', step svc w c = some w' →
        c.machine.registers 2 = 6 ∨ c.machine.registers 2 = 50 →
        Allocates (w'.kernel.machine.registers 2) w.kernel.fileSystem w'.kernel.fileSystem := by
  have hx := files_ok hk hw
  refine ⟨hx.named, hx.stdin, hx.stdout, ?_, fun c w' hs hnumber => ?_⟩
  · refine (hw.invariant (I := fun w => w.files.Ok ∧ w.Typed) ⟨hk.ok.1, ?_⟩ ?_).2
    · intro i f hi hf
      cases (hk.ok.2 i hi).symm.trans hf
    · intro w c w' ⟨hx, ht⟩ _ hs
      exact ⟨(step_effect hx hs).1.ok hx, typed_step hx ht hs⟩
  · cases (step_effect hx hs).1 with
    | opens _ htakes _ => exact allocates hx htakes
    | sockets _ htakes => exact allocates hx htakes
    | closes h10 _ => omega
    | transfers h78 _ => omega
    | seeks h9 _ => omega
    | other hne _ =>
      simp only [List.mem_cons, List.not_mem_nil, or_false, not_or] at hne
      exact hnumber.elim (absurd · hne.1) (absurd · hne.2.2.2.2.2)

def smallHost : Host where
  dir name := if name = [97] then some 0 else none
  data i := if i = 0 then [1, 2, 3, 4] else []
  fds _ := none
  nextInode := 1

def grant (fd : ℕ) : Env := { Sys.noEnv with fd := some fd, limit := some 100 }

def smallCall (number r4 r5 r6 : Int) (env : Env) : Call where
  machine :=
    { mainMemory := fun a => if a = 0 then 97 else 0
      registers := fun i => if i = 2 then number else if i = 4 then r4 else if i = 5 then r5
        else if i = 6 then r6 else 0
      tlb := none
      pageTable := some [⟨0, 0, true, false, false, false⟩]
      pageTableSize := 1 }
  env := env
  input := []

def smallKernel : Kernel Unit :=
  match FileSystem.new smallHost (grant 3) (grant 3) (grant 3) (grant 4) 0 with
  | .ok x => { Sys.bareKernel (smallCall 0 0 0 0 Sys.noEnv).machine with
      fileSystem := x.1, host := x.2 }
  | .error _ => Sys.bareKernel (smallCall 0 0 0 0 Sys.noEnv).machine

theorem smallKernel_started : Started smallKernel := by
  have hok : (FileSystem.new smallHost (grant 3) (grant 3) (grant 3) (grant 4) 0).isOk = true := by
    decide +kernel
  refine ⟨smallHost, grant 3, grant 3, grant 3, grant 4, 0, ?_⟩
  unfold smallKernel
  cases h : FileSystem.new smallHost (grant 3) (grant 3) (grant 3) (grant 4) 0 with
  | ok x => rfl
  | error e =>
    rw [h] at hok
    cases hok

/-- `Open("a", 0)`, `Socket()` and `Close(2)`. -/
theorem file_table_kept_three_calls : ∃ w : World Unit,
    Reach (step Sys.zeroServices) (fun _ _ => True) (start smallKernel) w ∧
      w.origin 2 = none ∧ w.origin 3 = some .socket ∧ w.Typed := by
  have hrun : ((exec (step Sys.zeroServices) (fun _ _ => True) (start smallKernel)
      [smallCall 6 0 0 0 (grant 5), smallCall 50 0 0 0 (grant 6),
        smallCall 10 2 0 0 Sys.noEnv]).map fun w => (w.origin 2, w.origin 3)) =
      some (none, some .socket) := by
    decide +kernel
  obtain ⟨w, hw, horigin⟩ := Option.map_eq_some_iff.mp hrun
  exact ⟨w, reach_of_exec _ hw, congrArg Prod.fst horigin, congrArg Prod.snd horigin,
    (file_table_kept smallKernel_started (reach_of_exec _ hw)).2.2.2.1⟩

end World
end Nachos
