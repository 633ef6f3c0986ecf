import Nachos.Lib.Programs
import Nachos.Scheduler

namespace Nachos.Scheduler
open GuardedRun
open Programs (except_bind_ok)

/-- `begun` tells a thread that has run from one that `ThreadRoot` has yet to start. -/
structure User where
  registers : ℕ → Int
  space : Option Space
  begun : Bool

def PC.begun : PC → Bool
  | .created | .threadRoot => false
  | .body | .inYield | .inP _ | .finishing => true

def Thread.user (θ : Thread) : User := ⟨θ.userRegisters, θ.space, θ.pc.begun⟩

def User.save (u : User) (c : Cpu) : User :=
  if u.space.isSome then
    { u with registers := fun i => if i < numTotalRegs then c.registers i else u.registers i }
  else u

theorem Thread.user_save (θ : Thread) (c : Cpu) :
    (if θ.space.isSome then θ.saveUserState c else θ).user = θ.user.save c := by
  unfold User.save
  change _ = if θ.space.isSome then _ else _
  split <;> rfl

namespace State

def user (s : State) (t : Addr) : Option User := (s.threads t).map Thread.user

/-- The threads once the current one has saved its registers. -/
def saved (s : State) : Addr → Option User :=
  Function.update s.user s.currentThread ((s.user s.currentThread).map fun u => u.save s.cpu)

variable {s s' s'' : State} {t : Addr} {θ : Thread}

theorem thread_ok (h : s.thread t = .ok θ) : s.threads t = some θ := by
  unfold thread at h
  split at h
  · cases h
  · next h' => rw [h', Except.ok.inj h]

theorem user_of_thread (h : s.threads t = some θ) : s.user t = some θ.user := by
  simp [user, h]

theorem user_setThread (s : State) (t : Addr) (θ : Thread) :
    (s.setThread t θ).user = Function.update s.user t (some θ.user) := by
  funext u
  by_cases hu : u = t <;> simp [user, setThread, hu]

theorem user_setThread_of_user (h : s.threads t = some θ) (θ' : Thread) (hu : θ'.user = θ.user) :
    (s.setThread t θ').user = s.user := by
  rw [user_setThread, hu, ← user_of_thread h, Function.update_eq_self]

structure Same (s s' : State) : Prop where
  user : s'.user = s.user
  cpu : s'.cpu = s.cpu
  current : s'.currentThread = s.currentThread

theorem Same.saved (h : Same s s') : s'.saved = s.saved := by
  unfold State.saved
  rw [h.user, h.cpu, h.current]

/-- The current thread keeps the processor, or hands it over with its registers saved. -/
inductive GivesUp (s s' : State) : Prop
  | stays : Same s s' → s'.mode ≠ .switched → GivesUp s s'
  | leaves : s'.user = s.saved → s'.cpu = s.cpu → s'.mode = .switched → GivesUp s s'

theorem Same.givesUp (h : Same s s') (h' : GivesUp s' s'') : GivesUp s s'' := by
  cases h' with
  | stays hs hm =>
    exact .stays ⟨hs.user.trans h.user, hs.cpu.trans h.cpu, hs.current.trans h.current⟩ hm
  | leaves hu hc hm => exact .leaves (hu.trans h.saved) (hc.trans h.cpu) hm

theorem same_setThread (h : s.threads t = some θ) (θ' : Thread) (hu : θ'.user = θ.user) :
    Same s (s.setThread t θ') :=
  ⟨user_setThread_of_user h θ' hu, rfl, rfl⟩

theorem Same.setSem (h : Same s s') (σ : Addr) (S : Semaphore Addr) : Same s (s'.setSem σ S) :=
  ⟨h.user, h.cpu, h.current⟩

theorem readyToRun_same (h : s.readyToRun t = .ok s') : Same s s' := by
  obtain ⟨θ, hθ, h⟩ := except_bind_ok h
  obtain ⟨l, -, h⟩ := except_bind_ok h
  cases h
  exact ⟨user_setThread_of_user (thread_ok hθ) _ rfl, rfl, rfl⟩

theorem run_leaves {n : Addr} {b : Bool} (h : s.run n b = .ok s') : GivesUp s s' := by
  unfold run at h
  dsimp only at h
  split at h
  · cases h
  · obtain ⟨θ, hθ, h⟩ := except_bind_ok h
    obtain ⟨ν, hν, h⟩ := except_bind_ok h
    cases h
    refine .leaves ?_ rfl rfl
    rw [saved, user_of_thread (thread_ok hθ), Option.map_some, ← Thread.user_save,
      ← user_setThread]
    exact user_setThread_of_user (thread_ok hν) { ν with status := .running } rfl

theorem sleepLoop_givesUp {b : Bool} (h : s.sleepLoop b = .ok s') : GivesUp s s' := by
  unfold sleepLoop findNextToRun at h
  cases hl : s.readyList with
  | nil =>
    simp only [hl] at h
    cases h
    exact .stays ⟨rfl, rfl, rfl⟩ nofun
  | cons n rest =>
    simp only [hl] at h
    have hs : Same s { s with readyList := rest } := ⟨rfl, rfl, rfl⟩
    exact hs.givesUp (run_leaves h)

theorem sleep_givesUp {b : Bool} (h : s.sleep b = .ok s') : GivesUp s s' := by
  obtain ⟨θ, hθ, h⟩ := except_bind_ok h
  have hs := same_setThread (thread_ok hθ) { θ with status := .blocked } rfl
  exact hs.givesUp (sleepLoop_givesUp h)

/-- `Finish` asserts that it is called on the current thread. -/
theorem finish_current (h : s.finish t = .ok s') : t = s.currentThread := by
  by_contra ht
  unfold finish at h
  rw [if_pos ht] at h
  cases h

theorem user_goto (hb : θ.pc.begun = true) {pc : PC} (hpc : pc.begun = true) :
    ({ θ with pc := pc } : Thread).user = θ.user := by
  simp [Thread.user, hb, hpc]

section Current
variable (hθ : s.threads s.currentThread = some θ) (hb : θ.pc.begun = true)
include hθ hb

theorem yield_givesUp (hm : s.mode ≠ .switched) (h : s.yield = .ok s') : GivesUp s s' := by
  unfold yield findNextToRun at h
  cases hl : s.readyList with
  | nil =>
    simp only [hl] at h
    cases h
    exact .stays ⟨rfl, rfl, rfl⟩ hm
  | cons n rest =>
    simp only [hl] at h
    obtain ⟨φ, hφ, h⟩ := except_bind_ok h
    obtain ⟨s₁, hs₁, h⟩ := except_bind_ok h
    obtain rfl : φ = θ := Option.some.inj ((thread_ok hφ).symm.trans hθ)
    have h₁ := user_setThread_of_user (s := { s with readyList := rest }) hθ
      { φ with pc := .inYield } (user_goto hb rfl)
    have h₂ := readyToRun_same hs₁
    have hs : Same s s₁ := ⟨h₂.user.trans h₁, h₂.cpu, h₂.current⟩
    exact hs.givesUp (run_leaves h)

theorem finish_givesUp (h : s.finish t = .ok s') : GivesUp s s' := by
  obtain rfl := finish_current h
  unfold finish at h
  rw [if_neg (not_not.mpr rfl)] at h
  obtain ⟨φ, hφ, h⟩ := except_bind_ok h
  obtain rfl : φ = θ := Option.some.inj ((thread_ok hφ).symm.trans hθ)
  have hs := same_setThread hθ { φ with pc := .finishing } (user_goto hb rfl)
  exact hs.givesUp (sleep_givesUp h)

theorem testP_givesUp {σ : Addr} (h : s.testP σ = .ok s') : GivesUp s s' := by
  unfold testP at h
  split at h
  · cases h
  · obtain ⟨φ, hφ, h⟩ := except_bind_ok h
    obtain rfl : φ = θ := Option.some.inj ((thread_ok hφ).symm.trans hθ)
    dsimp only at h
    split_ifs at h
    · cases h
      exact .stays ⟨user_setThread_of_user hθ { φ with pc := .body } (user_goto hb rfl), rfl, rfl⟩
        nofun
    · obtain ⟨queue, -, h⟩ := except_bind_ok h
      have h₁ := same_setThread hθ { φ with pc := .inP σ } (user_goto hb rfl)
      exact (h₁.setSem σ _).givesUp (sleep_givesUp h)

end Current

theorem readyToRun_mode (h : s.readyToRun t = .ok s') : s'.mode = s.mode := by
  obtain ⟨θ, -, h⟩ := except_bind_ok h
  obtain ⟨l, -, h⟩ := except_bind_ok h
  cases h
  rfl

theorem callV_same {σ : Addr} (h : s.callV σ = .ok s') : Same s s' ∧ s'.mode = s.mode := by
  unfold callV at h
  split at h
  · cases h
  · dsimp only at h
    split at h
    · cases h
      exact ⟨⟨rfl, rfl, rfl⟩, rfl⟩
    · have h₁ := readyToRun_same h
      have hm := readyToRun_mode h
      exact ⟨⟨h₁.user, h₁.cpu, h₁.current⟩, hm⟩

theorem fork_same (hθ : s.threads t = some θ) (hpc : θ.pc = .created)
    (h : s.fork t = .ok s') : Same s s' ∧ s'.mode = s.mode := by
  obtain ⟨φ, hφ, h⟩ := except_bind_ok h
  obtain rfl : φ = θ := Option.some.inj ((thread_ok hφ).symm.trans hθ)
  have h₁ := user_setThread_of_user hθ { φ with pc := .threadRoot } (by simp [Thread.user, hpc,
    PC.begun])
  have h₂ := readyToRun_same h
  have hm := readyToRun_mode h
  exact ⟨⟨h₂.user.trans h₁, h₂.cpu, h₂.current⟩, hm⟩

/-- Every step of the system, as the user programs see it. -/
inductive Effect (s : State) (a : Act) (s' : State) : Prop
  | same : Same s s' → s'.mode = s.mode → Effect s a s'
  | givesUp : s.mode ≠ .switched → GivesUp s s' → Effect s a s'
  | spawn (t : Addr) (junk : ℕ → Int) : s.user t = none → t ≠ s.currentThread →
      s'.user = Function.update s.user t (some ⟨junk, none, false⟩) → s'.cpu = s.cpu →
      s'.currentThread = s.currentThread → s'.mode = s.mode → Effect s a s'
  | registers (r : ℕ → Int) : s.mode ≠ .switched →
      a = .instruction r ∨ a = .interrupt ∧ r = (s.cpu.delayedLoad 0 0).registers →
      s'.user = s.user → s'.cpu = { s.cpu with registers := r } →
      s'.currentThread = s.currentThread → s'.mode = s.mode → Effect s a s'
  | execute (u : User) (sp : Space) : s.mode ≠ .switched → a = .execute sp →
      s.user s.currentThread = some u →
      s'.user = Function.update s.user s.currentThread (some { u with space := some sp }) →
      s'.cpu = ⟨sp.initRegisters s.cpu.registers, sp.pageTable, sp.numPages⟩ →
      s'.currentThread = s.currentThread → s'.mode = s.mode → Effect s a s'
  | exit (u : User) (s₁ : State) : s.mode ≠ .switched → s.user s.currentThread = some u →
      s₁.user = Function.update s.user s.currentThread (some { u with space := none }) →
      s₁.cpu = s.cpu → s₁.currentThread = s.currentThread → s₁.mode = s.mode →
      GivesUp s₁ s' → Effect s a s'
  | resume (θ : Thread) : s.mode = .switched → s.threads s.currentThread = some θ →
      s'.user s.currentThread = some { θ.user with begun := true } →
      (∀ t, t ≠ s.currentThread → s'.user t = s.user t ∨ s'.user t = none) →
      s'.cpu = (if θ.pc.begun then s.cpu.restore θ else s.cpu) →
      s'.currentThread = s.currentThread → s'.mode ≠ .switched → Effect s a s'

theorem newThread_effect {a : Act} (hθ : s.threads s.currentThread = some θ)
    (h : s.threads t = none) (pid : Int) (junk : ℕ → Int)
    (hu : s'.user = (s.newThread t pid junk).user) (hc : s'.cpu = s.cpu)
    (hcur : s'.currentThread = s.currentThread) (hm : s'.mode = s.mode) : Effect s a s' := by
  refine .spawn t junk (by simp [user, h]) ?_ ?_ hc hcur hm
  · rintro rfl
    cases h.symm.trans hθ
  · rw [hu]
    exact user_setThread s t _

theorem checkToBeDestroyed_effect (h : s.checkToBeDestroyed = .ok s') :
    s'.threads s.currentThread = s.threads s.currentThread ∧
    (∀ t, t ≠ s.currentThread → s'.user t = s.user t ∨ s'.user t = none) ∧
    s'.cpu = s.cpu ∧ s'.currentThread = s.currentThread := by
  unfold checkToBeDestroyed at h
  split at h
  · cases h
    exact ⟨rfl, fun _ _ => .inl rfl, rfl, rfl⟩
  · next u _ =>
    split_ifs at h with hu
    split at h
    · cases h
    · cases h
      refine ⟨Function.update_of_ne (Ne.symm hu) _ _, fun t _ => ?_, rfl, rfl⟩
      by_cases ht : t = u <;> simp [user, ht]

theorem resume_effect {a : Act} (hm : s.mode = .switched)
    (hθ : s.threads s.currentThread = some θ) (h : s.resume = .ok s') : Effect s a s' := by
  obtain ⟨φ, hφ, h⟩ := except_bind_ok h
  obtain ⟨s₁, hs₁, h⟩ := except_bind_ok h
  obtain rfl : φ = θ := Option.some.inj ((thread_ok hφ).symm.trans hθ)
  obtain ⟨hcur, hothers, hcpu, hct⟩ := checkToBeDestroyed_effect hs₁
  have hset : ∀ t, t ≠ s.currentThread → (s₁.setThread s₁.currentThread
      { φ with pc := .body }).user t = s.user t ∨ (s₁.setThread s₁.currentThread
      { φ with pc := .body }).user t = none := by
    intro t ht
    rw [user_setThread, Function.update_of_ne (hct ▸ ht)]
    exact hothers t ht
  have hown : (s₁.setThread s₁.currentThread { φ with pc := .body }).user s.currentThread =
      some { φ.user with begun := true } := by
    rw [user_setThread, hct, Function.update_self]
    rfl
  split at h <;> cases h
  case h_1 hpc _ =>
    refine .resume φ hm hθ hown hset ?_ hct nofun
    rw [hpc]
    exact hcpu
  case h_2 hpc _ =>
    refine .resume φ hm hθ hown hset ?_ hct nofun
    rw [hpc]
    exact congrArg (Cpu.restore · φ) hcpu
  case h_3 hpc _ =>
    refine .resume φ hm hθ ?_ hothers ?_ hct nofun
    · simp [user, hcur, hθ, Thread.user, hpc, PC.begun]
    · rw [hpc]
      exact congrArg (Cpu.restore · φ) hcpu

theorem execute_effect {sp : Space} (hm : s.mode ≠ .switched)
    (hθ : s.threads s.currentThread = some θ) (h : s.execute sp = .ok s') :
    Effect s (.execute sp) s' := by
  obtain ⟨φ, hφ, h⟩ := except_bind_ok h
  obtain rfl : φ = θ := Option.some.inj ((thread_ok hφ).symm.trans hθ)
  cases h
  exact .execute φ.user sp hm rfl (user_of_thread hθ) (user_setThread s _ _) rfl rfl rfl

theorem remove_effect {a : Act} {id : Int} (hm : s.mode ≠ .switched)
    (hθ : s.threads s.currentThread = some θ) (hb : θ.pc.begun = true)
    (h : s.remove id = .ok s') : Effect s a s' := by
  unfold remove at h
  split at h
  · cases h
    exact .same ⟨rfl, rfl, rfl⟩ rfl
  · next u _ =>
    obtain ⟨υ, hυ, h⟩ := except_bind_ok h
    obtain ⟨φ, -, h⟩ := except_bind_ok h
    split_ifs at h
    · have hu := finish_current h
      change u = s.currentThread at hu
      subst hu
      obtain rfl : υ = θ := Option.some.inj ((thread_ok hυ).symm.trans hθ)
      have hg := finish_givesUp (θ := { υ with space := none }) (Function.update_self ..) hb h
      exact .exit υ.user ({ s with pcb := Function.update s.pcb id none }.setThread
        s.currentThread { υ with space := none }) hm (user_of_thread hθ)
        (user_setThread _ _ _) rfl rfl rfl hg
    · cases h
      exact .same ⟨rfl, rfl, rfl⟩ rfl

/-- The machine holds the page table of the thread that runs, and a thread gets a space
only once it has begun. -/
structure Installed (s : State) : Prop where
  begun : s.mode ≠ .switched → ∀ u, s.user s.currentThread = some u → u.begun = true
  fresh : ∀ t u, s.user t = some u → u.begun = false → u.space = none
  active : s.mode ≠ .switched → ∀ u sp, s.user s.currentThread = some u → u.space = some sp →
    s.cpu.pageTable = sp.pageTable ∧ s.cpu.pageTableSize = sp.numPages

theorem act_effect {a : Act} (hm : s.mode = .running)
    (hθ : s.threads s.currentThread = some θ) (hb : θ.pc.begun = true)
    (h : s.act θ a = some (.ok s')) : Effect s a s' := by
  have hm' : s.mode ≠ .switched := by rw [hm]; nofun
  cases a <;> simp only [act, Option.ite_none_right_eq_some, Option.ite_none_left_eq_some,
    Option.some.injEq, reduceCtorEq] at h
  case newThread t pid junk =>
    obtain ⟨ht, h⟩ := h
    cases h
    exact newThread_effect hθ ht pid junk rfl rfl rfl rfl
  case exec id t junk =>
    obtain ⟨⟨ht, -⟩, h⟩ := h
    cases h
    exact newThread_effect hθ ht id junk rfl rfl rfl rfl
  case fork t =>
    obtain ⟨ht, h⟩ := h
    obtain ⟨φ, hφ, hpc⟩ := Option.any_eq_true .. |>.mp ht
    obtain ⟨hs, hsm⟩ := fork_same hφ (by simpa using hpc) h
    exact .same hs hsm
  case yield => exact .givesUp hm' (yield_givesUp hθ hb hm' h)
  case newSem =>
    obtain ⟨-, h⟩ := h
    cases h
    exact .same ⟨rfl, rfl, rfl⟩ rfl
  case deleteSem =>
    obtain ⟨-, h⟩ := h
    cases h
    exact .same ⟨rfl, rfl, rfl⟩ rfl
  case callP => exact .givesUp hm' (testP_givesUp hθ hb h.2)
  case callV =>
    obtain ⟨hs, hsm⟩ := callV_same h.2
    exact .same hs hsm
  case finish => exact .givesUp hm' (finish_givesUp hθ hb h.2)
  case execute => exact execute_effect hm' hθ h.2
  case instruction r =>
    obtain ⟨-, h⟩ := h
    cases h
    exact .registers r hm' (.inl rfl) rfl rfl rfl rfl
  case exit => exact remove_effect hm' hθ hb h.2

theorem interruptAct_effect {a : Act} (hm : s.mode ≠ .switched)
    (h : s.interruptAct a = some (.ok s')) : Effect s a s' := by
  cases a <;> simp only [interruptAct, Option.ite_none_left_eq_some,
    Option.some.injEq, reduceCtorEq] at h
  case interrupt =>
    cases h
    exact .registers _ hm (.inr ⟨rfl, rfl⟩) rfl rfl rfl rfl
  case handlerV =>
    obtain ⟨hs, hsm⟩ := callV_same h.2
    exact .same hs hsm

theorem next_effect {a : Act} (hi : Installed s) (hθ : s.threads s.currentThread = some θ)
    (h : s.next θ a = some (.ok s')) : Effect s a s' := by
  have hb : s.mode ≠ .switched → θ.pc.begun = true := fun hm =>
    hi.begun hm θ.user (user_of_thread hθ)
  unfold next at h
  cases hm : s.mode with
  | running =>
    simp only [hm] at h
    rcases Option.or_eq_some_iff.mp h with h | ⟨-, h⟩
    · exact interruptAct_effect (by rw [hm]; nofun) h
    · exact act_effect hm hθ (hb (by rw [hm]; nofun)) h
  | idling =>
    have hm' : s.mode ≠ .switched := by rw [hm]; nofun
    simp only [hm] at h
    split at h
    · exact .givesUp hm' (sleepLoop_givesUp (Option.some.inj h))
    · exact interruptAct_effect hm' h
  | switched =>
    simp only [hm] at h
    split at h
    · exact resume_effect hm hθ (Option.some.inj h)
    · cases h
  | testing =>
    have hm' : s.mode ≠ .switched := by rw [hm]; nofun
    simp only [hm] at h
    split at h
    · exact .givesUp hm' (testP_givesUp hθ (hb hm') (Option.some.inj h))
    · cases h

theorem step_effect {a : Act} (hi : Installed s) (h : step s a = some s') : Effect s a s' := by
  unfold step at h
  split at h
  · cases h
  · split at h
    · cases h
    · next θ hθ =>
      obtain ⟨r, hr, rfl⟩ := Option.map_eq_some_iff.mp h
      cases r with
      | ok s₁ => exact next_effect hi hθ hr
      | error f => exact .same ⟨rfl, rfl, rfl⟩ rfl

theorem User.save_fields (u : User) (c : Cpu) :
    (u.save c).begun = u.begun ∧ (u.save c).space = u.space := by
  unfold User.save
  split <;> exact ⟨rfl, rfl⟩

theorem saved_eq_some {u : User} (h : s.saved t = some u) :
    ∃ v, s.user t = some v ∧ u.begun = v.begun ∧ u.space = v.space ∧
      u = if t = s.currentThread then v.save s.cpu else v := by
  by_cases ht : t = s.currentThread
  · subst ht
    rw [saved, Function.update_self] at h
    obtain ⟨v, hv, rfl⟩ := Option.map_eq_some_iff.mp h
    exact ⟨v, hv, (User.save_fields v s.cpu).1, (User.save_fields v s.cpu).2, (if_pos rfl).symm⟩
  · rw [saved, Function.update_of_ne ht] at h
    exact ⟨u, h, rfl, rfl, (if_neg ht).symm⟩

theorem Installed.of_same (hi : Installed s) (hs : Same s s') (hm : s'.mode = s.mode) :
    Installed s' := by
  constructor
  · rw [hs.user, hs.current, hm]
    exact hi.begun
  · rw [hs.user]
    exact hi.fresh
  · rw [hs.user, hs.current, hs.cpu, hm]
    exact hi.active

theorem Installed.of_givesUp (hi : Installed s) (hm : s.mode ≠ .switched) (h : GivesUp s s') :
    Installed s' := by
  cases h with
  | stays hs _ =>
    constructor
    · rw [hs.user, hs.current]
      exact fun _ => hi.begun hm
    · rw [hs.user]
      exact hi.fresh
    · rw [hs.user, hs.current, hs.cpu]
      exact fun _ => hi.active hm
  | leaves hu hc hm' =>
    refine ⟨fun h => absurd hm' h, fun t u hut hub => ?_, fun h => absurd hm' h⟩
    rw [hu] at hut
    obtain ⟨v, hv, hb, hsp, -⟩ := saved_eq_some hut
    rw [hsp]
    exact hi.fresh t v hv (hb ▸ hub)

/-- A step that changes the user program of the current thread only. -/
theorem Installed.of_current (hi : Installed s) {u : User}
    (hcur : s'.currentThread = s.currentThread) (hu : s'.user s.currentThread = some u)
    (hb : u.begun = true)
    (hothers : ∀ t, t ≠ s.currentThread → s'.user t = s.user t ∨ s'.user t = none)
    (hact : ∀ sp, u.space = some sp →
      s'.cpu.pageTable = sp.pageTable ∧ s'.cpu.pageTableSize = sp.numPages) : Installed s' := by
  constructor
  · intro _ v hv
    rw [hcur, hu] at hv
    cases hv
    exact hb
  · intro t v hv hvb
    by_cases ht : t = s.currentThread
    · subst ht
      rw [hu] at hv
      cases hv
      rw [hb] at hvb
      cases hvb
    · rcases hothers t ht with h | h
      · exact hi.fresh t v (h ▸ hv) hvb
      · rw [h] at hv
        cases hv
  · intro _ v sp hv hsp
    rw [hcur, hu] at hv
    cases hv
    exact hact sp hsp

/-- `~PCB` takes away the space of the current thread. -/
theorem Installed.exit (hi : Installed s) {u : User} (hm : s.mode ≠ .switched)
    (hcu : s.user s.currentThread = some u)
    (hu : s'.user = Function.update s.user s.currentThread (some { u with space := none }))
    (hcur : s'.currentThread = s.currentThread) : Installed s' := by
  refine hi.of_current hcur (u := { u with space := none }) ?_ (hi.begun hm u hcu) ?_ nofun
  · rw [hu, Function.update_self]
  · intro t ht
    rw [hu, Function.update_of_ne ht]
    exact .inl rfl

theorem Installed.begun_of_space {sp : Space} (hi : Installed s) (hθ : s.threads t = some θ)
    (hsp : θ.space = some sp) : θ.pc.begun = true := by
  by_contra hb
  have hnone := hi.fresh t θ.user (user_of_thread hθ) (Bool.eq_false_of_not_eq_true hb)
  cases hnone.symm.trans hsp

theorem Installed.step {a : Act} (hi : Installed s) (h : step s a = some s') : Installed s' := by
  cases step_effect hi h with
  | same hs hm => exact hi.of_same hs hm
  | givesUp hm h => exact hi.of_givesUp hm h
  | spawn t junk ht hne hu hc hcur hm =>
    have hcu : s'.user s'.currentThread = s.user s.currentThread := by
      rw [hu, hcur, Function.update_of_ne (Ne.symm hne)]
    refine ⟨by rw [hcu, hm]; exact hi.begun, fun t' u hut hub => ?_,
      by rw [hcu, hm, hc]; exact hi.active⟩
    rw [hu] at hut
    by_cases ht' : t' = t
    · subst ht'
      rw [Function.update_self] at hut
      cases hut
      rfl
    · rw [Function.update_of_ne ht'] at hut
      exact hi.fresh t' u hut hub
  | registers r hm _ hu hc hcur hm' =>
    constructor
    · rw [hu, hcur, hm']
      exact hi.begun
    · rw [hu]
      exact hi.fresh
    · rw [hu, hcur, hc, hm']
      exact hi.active
  | execute u sp hm _ hcu hu hc hcur hm' =>
    refine hi.of_current hcur (u := { u with space := some sp }) ?_ (hi.begun hm u hcu) ?_ ?_
    · rw [hu, Function.update_self]
    · intro t ht
      rw [hu, Function.update_of_ne ht]
      exact .inl rfl
    · intro sp' hsp
      cases hsp
      rw [hc]
      exact ⟨rfl, rfl⟩
  | exit u s₁ hm hcu hu hc hcur hm₁ h =>
    exact (hi.exit hm hcu hu hcur).of_givesUp (hm₁ ▸ hm) h
  | resume θ hm hθ hu hothers hc hcur hm' =>
    refine hi.of_current hcur hu rfl hothers fun sp hsp => ?_
    change θ.space = some sp at hsp
    -- a thread with a space has begun, so its page table is restored
    have hb : θ.pc.begun = true := hi.begun_of_space hθ hsp
    rw [hc, if_pos hb, Cpu.restore, hsp]
    exact ⟨rfl, rfl⟩

theorem installed_init (main : Addr) (pageTableSize : ℕ) (junk : ℕ → Int) :
    Installed (init main pageTableSize junk) := by
  have hu : ∀ t u, (init main pageTableSize junk).user t = some u →
      u = ⟨junk, none, true⟩ := by
    intro t u h
    by_cases ht : t = main <;> simp [user, init, ht, Thread.user, PC.begun] at h
    exact h.symm
  refine ⟨fun _ u h => by rw [hu _ u h], fun t u h _ => by rw [hu t u h], ?_⟩
  intro _ u sp h hsp
  rw [hu _ u h] at hsp
  cases hsp

/-- All the registers of the machine, and its page table. -/
structure Context where
  registers : Fin numTotalRegs → Int
  pageTable : Option Addr
  pageTableSize : ℕ

end State

def Cpu.context (c : Cpu) : State.Context := ⟨fun i => c.registers i, c.pageTable, c.pageTableSize⟩

namespace State
variable {s s' s'' : State} {t : Addr} {θ : Thread}

/-- What thread `t` computes with: the machine while it runs, what it saved otherwise. -/
def context (s : State) (t : Addr) : Option Context :=
  (s.user t).bind fun u => u.space.map fun sp =>
    if t = s.currentThread ∧ s.mode ≠ .switched then s.cpu.context
    else ⟨fun i => u.registers i, sp.pageTable, sp.numPages⟩

/-- Thread `t` is running, and the step is an instruction or a system call's result, the
end of a delayed load of its own, or the start of a program. -/
def Own (s : State) (t : Addr) (a : Act) (s' : State) : Prop :=
  t = s.currentThread ∧ s.mode ≠ .switched ∧
    ((∃ r, a = .instruction r) ∨ (a = .interrupt ∧ s'.cpu = s.cpu.delayedLoad 0 0) ∨
      ∃ sp, a = .execute sp)

theorem context_eq_some {c : Context} (h : s.context t = some c) : ∃ u sp, s.user t = some u ∧
    u.space = some sp ∧ c = if t = s.currentThread ∧ s.mode ≠ .switched then s.cpu.context
      else ⟨fun i => u.registers i, sp.pageTable, sp.numPages⟩ := by
  obtain ⟨u, hu, h⟩ := Option.bind_eq_some_iff.mp h
  obtain ⟨sp, hsp, h⟩ := Option.map_eq_some_iff.mp h
  exact ⟨u, sp, hu, hsp, h.symm⟩

theorem context_of_user {u : User} {sp : Space} (hu : s.user t = some u)
    (hsp : u.space = some sp) :
    s.context t = some (if t = s.currentThread ∧ s.mode ≠ .switched then s.cpu.context
      else ⟨fun i => u.registers i, sp.pageTable, sp.numPages⟩) := by
  simp [context, hu, hsp]

theorem context_away (hu : s'.user t = s.user t)
    (hn : ¬(t = s.currentThread ∧ s.mode ≠ .switched))
    (hn' : ¬(t = s'.currentThread ∧ s'.mode ≠ .switched)) : s'.context t = s.context t := by
  unfold context
  simp only [hu, if_neg hn, if_neg hn']

theorem context_same (hs : Same s s')
    (hm : s'.mode ≠ .switched ↔ s.mode ≠ .switched) : s'.context t = s.context t := by
  unfold context
  simp only [hs.user, hs.cpu, hs.current, hm]

theorem save_registers {u : User} {sp : Space} (hsp : u.space = some sp) (c : Cpu)
    (i : Fin numTotalRegs) : (u.save c).registers i = c.registers i := by
  simp [User.save, hsp]

theorem context_givesUp {c : Context} (hi : Installed s) (hm : s.mode ≠ .switched)
    (h : GivesUp s s') (hc : s'.context t = some c) : s.context t = some c := by
  cases h with
  | stays hs hm' => exact (context_same hs (iff_of_true hm' hm)) ▸ hc
  | leaves hu _ hm' =>
    obtain ⟨u, sp, hut, hsp, rfl⟩ := context_eq_some hc
    rw [if_neg fun h => h.2 hm']
    rw [hu] at hut
    obtain ⟨v, hv, -, hvsp, rfl⟩ := saved_eq_some hut
    rw [hvsp] at hsp
    rw [context_of_user hv hsp]
    by_cases ht : t = s.currentThread
    · -- the thread that leaves: its registers go from the machine to its entry
      subst ht
      obtain ⟨hpt, hsz⟩ := hi.active hm v sp hv hsp
      rw [if_pos ⟨rfl, hm⟩, if_pos rfl]
      simp only [Cpu.context, hpt, hsz, save_registers hsp]
    · rw [if_neg fun h => ht h.1, if_neg ht]

theorem context_resume {c : Context} (hi : Installed s) (hm : s.mode = .switched)
    (hθ : s.threads s.currentThread = some θ)
    (hu : s'.user s.currentThread = some { θ.user with begun := true })
    (hcpu : s'.cpu = if θ.pc.begun then s.cpu.restore θ else s.cpu)
    (hcur : s'.currentThread = s.currentThread) (hm' : s'.mode ≠ .switched)
    (hc : s'.context s.currentThread = some c) : s.context s.currentThread = some c := by
  obtain ⟨u, sp, hut, hsp, rfl⟩ := context_eq_some hc
  rw [hu] at hut
  cases hut
  change θ.space = some sp at hsp
  have hb : θ.pc.begun = true := hi.begun_of_space hθ hsp
  rw [if_pos ⟨hcur.symm, hm'⟩, hcpu, if_pos hb, context_of_user (user_of_thread hθ) hsp,
    if_neg fun h => h.2 hm]
  simp [Cpu.restore, hsp, Cpu.context, Thread.user]

/-- Only a thread's own instructions and calls change what it computes with, and none of
them gives up the processor. -/
theorem context_step {a : Act} {c : Context} (hi : Installed s) (h : step s a = some s')
    (hown : s'.mode ≠ .switched → ¬Own s t a s') (hc : s'.context t = some c) :
    s.context t = some c := by
  cases step_effect hi h with
  | same hs hm => exact (context_same hs (by rw [hm])) ▸ hc
  | givesUp hm h => exact context_givesUp hi hm h hc
  | spawn t' junk ht hne hu hcpu hcur hm =>
    by_cases htt : t = t'
    · subst htt
      obtain ⟨u, sp, hut, hsp, -⟩ := context_eq_some hc
      rw [hu, Function.update_self] at hut
      cases hut
      cases hsp
    · unfold context at hc ⊢
      rw [hu, Function.update_of_ne htt, hcpu, hcur, hm] at hc
      exact hc
  | registers r hm ha hu hcpu hcur hm' =>
    -- a write to the registers is one of the thread that runs
    have hn : ¬(t = s.currentThread ∧ s.mode ≠ .switched) := by
      rintro ⟨rfl, -⟩
      refine hown (hm' ▸ hm) ⟨rfl, hm, ?_⟩
      rcases ha with ha | ⟨ha, hr⟩
      · exact .inl ⟨r, ha⟩
      · exact .inr (.inl ⟨ha, by rw [hcpu, hr]; rfl⟩)
    exact context_away (by rw [hu]) hn (by rw [hcur, hm']; exact hn) ▸ hc
  | execute u sp hm ha hcu hu hcpu hcur hm' =>
    have hn : t ≠ s.currentThread := fun ht =>
      hown (hm' ▸ hm) ⟨ht, hm, .inr (.inr ⟨sp, ha⟩)⟩
    have hut : s'.user t = s.user t := by rw [hu, Function.update_of_ne hn]
    exact context_away hut (fun h => hn h.1) (fun h => hn (h.1.trans hcur)) ▸ hc
  | exit u s₁ hm hcu hu hcpu hcur hm₁ h =>
    -- the thread that ends has no context any more
    have hi₁ := hi.exit hm hcu hu hcur
    have hc₁ := context_givesUp hi₁ (hm₁ ▸ hm) h hc
    have hn : t ≠ s.currentThread := by
      rintro rfl
      obtain ⟨v, sp, hut, hsp, -⟩ := context_eq_some hc₁
      rw [hu, Function.update_self] at hut
      cases hut
      cases hsp
    have hut : s₁.user t = s.user t := by rw [hu, Function.update_of_ne hn]
    exact context_away hut (fun h => hn h.1) (fun h => hn (h.1.trans hcur)) ▸ hc₁
  | resume θ hm hθ hu hothers hcpu hcur hm' =>
    by_cases ht : t = s.currentThread
    · subst ht
      exact context_resume hi hm hθ hu hcpu hcur hm' hc
    · rcases hothers t ht with h | h
      · exact context_away h (fun h => ht h.1) (fun h => ht (h.1.trans hcur)) ▸ hc
      · obtain ⟨u, -, hut, -⟩ := context_eq_some hc
        cases h.symm.trans hut

theorem installed_of_reach {main : Addr} {pageTableSize : ℕ} {junk : ℕ → Int}
    (h : Reach step (fun _ _ => True) (init main pageTableSize junk) s) : Installed s :=
  h.invariant (installed_init _ _ _) fun _ _ _ hi _ hs => hi.step hs

/-- While others run, a thread keeps its context. -/
theorem context_reach (hi : Installed s)
    (h : Reach step (fun s _ => s.currentThread ≠ t) s s') :
    Installed s' ∧ ∀ c, s'.context t = some c → s.context t = some c := by
  refine h.invariant (I := fun s' => Installed s' ∧
    ∀ c, s'.context t = some c → s.context t = some c) ⟨hi, fun _ hc => hc⟩ ?_
  intro s₁ a s₂ ⟨hi₁, hc₁⟩ hok hs
  exact ⟨hi₁.step hs, fun c hc => hc₁ c (context_step hi₁ hs (fun _ ho => hok ho.1.symm) hc)⟩

theorem current_of_switched {a : Act} (hi : Installed s) (hm : s.mode = .switched)
    (h : step s a = some s') : s'.currentThread = s.currentThread := by
  cases step_effect hi h with
  | same hs _ => exact hs.current
  | givesUp h _ | registers _ h | execute _ _ h | exit _ _ h => exact absurd hm h
  | spawn _ _ _ _ _ _ hcur _ => exact hcur
  | resume _ _ _ _ _ _ hcur _ => exact hcur

/-- In every run, a thread with a space that is switched out by one step and given the
processor again by a later one finds all registers and the page table as they were; and
a step changes what a thread computes with only if it is a step of that thread's own. -/
theorem context_kept_across_switches {main : Addr} {pageTableSize : ℕ} {junk : ℕ → Int}
    {s₁ : State} (h : Reach step (fun _ _ => True) (init main pageTableSize junk) s₁) :
    (∀ a s₂ s₃ b s₄ θ sp,
      s₁.mode ≠ .switched → step s₁ a = some s₂ → s₂.mode = .switched →
      Reach step (fun s _ => s.currentThread ≠ s₁.currentThread) s₂ s₃ →
      s₃.currentThread = s₁.currentThread → s₃.mode = .switched →
      step s₃ b = some s₄ → s₄.mode ≠ .switched →
      s₄.threads s₁.currentThread = some θ → θ.space = some sp →
      s₄.cpu.context = s₁.cpu.context) ∧
    ∀ a s' t c, step s₁ a = some s' → s'.context t = some c →
      s₁.context t = some c ∨ Own s₁ t a s' := by
  have hi := installed_of_reach h
  constructor
  · intro a s₂ s₃ b s₄ θ sp hm₁ h₁₂ hm₂ h₂₃ hcur hm₃ h₃₄ hm₄ hθ hsp
    obtain ⟨hi₃, hback⟩ := context_reach (hi.step h₁₂) h₂₃
    have hcur₄ := (current_of_switched hi₃ hm₃ h₃₄).trans hcur
    have hc₄ := context_of_user (user_of_thread hθ) hsp
    rw [if_pos ⟨hcur₄.symm, hm₄⟩] at hc₄
    -- the context is followed back from the thread's return to its leaving
    have hc₃ := context_step hi₃ h₃₄ (fun _ ho => ho.2.1 hm₃) hc₄
    have hc₁ := context_step hi h₁₂ (fun hm => absurd hm₂ hm) (hback _ hc₃)
    obtain ⟨u, sp', -, -, hc⟩ := context_eq_some hc₁
    rw [if_pos ⟨rfl, hm₁⟩] at hc
    exact hc
  · intro a s' t c hs hc
    by_cases ho : Own s₁ t a s'
    · exact .inr ho
    · exact .inl (context_step hi hs (fun _ => ho) hc)

/-- Two user processes take turns: the main program leaves with 9 in every register, the
other one fills the registers with 1, and the main program finds 9 again. -/
theorem context_kept_across_switches_two_processes : ∃ s₁ s₂ s₃ s₄ : State,
    Reach step (fun _ _ => True) (init 0 0 fun _ => 0) s₁ ∧ step s₁ .yield = some s₂ ∧
    Reach step (fun s _ => s.currentThread ≠ 0) s₂ s₃ ∧ step s₃ .resume = some s₄ ∧
    s₁.cpu.registers 4 = 9 ∧ s₃.cpu.registers 4 = 1 ∧ s₃.cpu.pageTable = some 8 ∧
    s₄.cpu.context = s₁.cpu.context := by
  obtain ⟨s₁, s₂, s₃, s₄, h₁, h₂, h₃, h₄, hr₁, hr₃, hp₃, hc₁, hc₃, hm₁, hm₂, hm₃, hm₄, θ, hθ, hsp⟩ :
      ∃ s₁ s₂ s₃ s₄ : State, exec step (fun _ _ => True) (init 0 0 fun _ => 0)
        [.execute ⟨some 7, 3⟩, .instruction fun _ => 9, .exec 1 1 fun _ => 0, .fork 1] = some s₁ ∧
      step s₁ .yield = some s₂ ∧ exec step (fun s _ => s.currentThread ≠ 0) s₂
        [.resume, .execute ⟨some 8, 2⟩, .instruction fun _ => 1, .yield] = some s₃ ∧
      step s₃ .resume = some s₄ ∧ s₁.cpu.registers 4 = 9 ∧ s₃.cpu.registers 4 = 1 ∧
      s₃.cpu.pageTable = some 8 ∧ 0 = s₁.currentThread ∧ s₃.currentThread = 0 ∧
      s₁.mode = .running ∧ s₂.mode = .switched ∧ s₃.mode = .switched ∧ s₄.mode = .running ∧
      ∃ θ, s₄.threads 0 = some θ ∧ θ.space = some ⟨some 7, 3⟩ :=
    ⟨_, _, _, _, rfl, rfl, rfl, rfl, rfl, rfl, rfl, rfl, rfl, rfl, rfl, rfl, rfl, _, rfl, rfl⟩
  have haway := reach_of_exec _ h₃
  refine ⟨s₁, s₂, s₃, s₄, reach_of_exec _ h₁, h₂, haway, h₄, hr₁, hr₃, hp₃, ?_⟩
  rw [hc₁] at haway hc₃ hθ
  exact (context_kept_across_switches (reach_of_exec _ h₁)).1 .yield s₂ s₃ .resume s₄ θ _
    (by simp [hm₁]) h₂ hm₂ haway hc₃ hm₃ h₄ (by simp [hm₄]) hθ hsp

end State
end Nachos.Scheduler
