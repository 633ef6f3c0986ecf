import Nachos.Semaphore
import Mathlib.Data.Set.Card

namespace Nachos
open GuardedRun

structure Lock (τ : Type*) where
  lockHolder : Option τ
  semaphore : Semaphore τ
  deriving DecidableEq, Repr

namespace Lock

variable {τ : Type*}

def new : Lock τ := ⟨none, .new 1⟩

def isHeldByCurrentThread [DecidableEq τ] (l : Lock τ) (currentThread : τ) : Bool :=
  l.lockHolder = some currentThread

/-- The statement of `Acquire` or `Release` a thread is at. -/
inductive Phase where
  /-- In neither call, and without the lock. -/
  | out
  /-- At `semaphore->P()`, asleep if the queue has the thread. -/
  | acquiring
  /-- At `lockHolder = kernel->currentThread`. -/
  | passed
  /-- `Acquire` has returned and `Release` has not been called. -/
  | held
  /-- At `ASSERT(IsHeldByCurrentThread())`. -/
  | releasing
  /-- At `lockHolder = NULL`. -/
  | clearing
  /-- At `semaphore->V()`. -/
  | leaving
  deriving DecidableEq, Repr

namespace Phase

/-- Past the `P` of `Acquire` and before the `V` of `Release`. -/
def inside : Phase → Bool
  | .out | .acquiring => false
  | _ => true

/-- Between the two assignments to `lockHolder`. -/
def holds : Phase → Bool
  | .held | .releasing | .clearing => true
  | _ => false

end Phase

/-- One lock with all its threads, any of which may lose the processor between two statements;
`aborted` once an `ASSERT` has failed. -/
structure System (τ : Type*) where
  lock : Lock τ
  phase : τ → Phase
  aborted : Bool

inductive Act (τ : Type*) where
  | acquire (t : τ)
  | release (t : τ)
  | run (t : τ)
  deriving DecidableEq, Repr

def Act.thread : Act τ → τ
  | .acquire t | .release t | .run t => t

def start : System τ := ⟨.new, fun _ => .out, false⟩

variable [DecidableEq τ]

def System.goto (s : System τ) (t : τ) (p : Phase) : System τ :=
  { s with phase := Function.update s.phase t p }

/-- The next statement of thread `t`; there is none outside the calls or asleep. -/
def run (s : System τ) (t : τ) : Option (System τ) :=
  match s.phase t with
  | .out => none
  | .acquiring =>
    if t ∈ s.lock.semaphore.queue then none
    else
      let r := s.lock.semaphore.P t
      let s' := { s with lock := { s.lock with semaphore := r.1 } }
      some (if r.2 then s'.goto t .passed else s')
  | .passed => some ({ s with lock := { s.lock with lockHolder := some t } }.goto t .held)
  | .held => none
  | .releasing =>
    if s.lock.isHeldByCurrentThread t then some (s.goto t .clearing)
    else some { s with aborted := true }
  | .clearing => some ({ s with lock := { s.lock with lockHolder := none } }.goto t .leaving)
  | .leaving =>
    some ({ s with lock := { s.lock with semaphore := s.lock.semaphore.V.1 } }.goto t .out)

def step (s : System τ) (a : Act τ) : Option (System τ) :=
  if s.aborted then none
  else
    match a with
    | .acquire t => if s.phase t = .out then some (s.goto t .acquiring) else none
    | .release t => if s.phase t = .held then some (s.goto t .releasing) else none
    | .run t => run s t

@[simp] theorem goto_lock (s : System τ) (t : τ) (p : Phase) : (s.goto t p).lock = s.lock := rfl

@[simp] theorem goto_aborted (s : System τ) (t : τ) (p : Phase) :
    (s.goto t p).aborted = s.aborted := rfl

@[simp] theorem goto_phase_self (s : System τ) (t : τ) (p : Phase) : (s.goto t p).phase t = p :=
  Function.update_self ..

@[simp] theorem goto_phase_of_ne (s : System τ) {t u : τ} (h : u ≠ t) (p : Phase) :
    (s.goto t p).phase u = s.phase u := Function.update_of_ne h ..

/-- All a thread can do at the lock, with what the step has found. -/
inductive Moves (s : System τ) (t : τ) : System τ → Prop
  | call : s.phase t = .out → Moves s t (s.goto t .acquiring)
  | sleep : s.phase t = .acquiring → t ∉ s.lock.semaphore.queue → s.lock.semaphore.value = 0 →
      Moves s t { s with lock := { s.lock with semaphore :=
        { s.lock.semaphore with queue := s.lock.semaphore.queue ++ [t] } } }
  | pass : s.phase t = .acquiring → s.lock.semaphore.value ≠ 0 →
      Moves s t ({ s with lock := { s.lock with semaphore :=
        { s.lock.semaphore with value := TwosComplement.wrap (s.lock.semaphore.value - 1) } } }.goto
          t .passed)
  | note : s.phase t = .passed →
      Moves s t ({ s with lock := { s.lock with lockHolder := some t } }.goto t .held)
  | callRelease : s.phase t = .held → Moves s t (s.goto t .releasing)
  | checked : s.phase t = .releasing → s.lock.lockHolder = some t → Moves s t (s.goto t .clearing)
  | fail : s.phase t = .releasing → s.lock.lockHolder ≠ some t →
      Moves s t { s with aborted := true }
  | clear : s.phase t = .clearing →
      Moves s t ({ s with lock := { s.lock with lockHolder := none } }.goto t .leaving)
  | leave : s.phase t = .leaving →
      Moves s t ({ s with lock := { s.lock with semaphore := s.lock.semaphore.V.1 } }.goto t .out)

variable {s s' : System τ} {t u : τ} {a : Act τ}

theorem run_moves (h : run s t = some s') : Moves s t s' := by
  unfold run at h
  split at h
  · cases h
  · next hp =>
    split_ifs at h with hq
    by_cases hv : s.lock.semaphore.value = 0
    · rw [Semaphore.P_of_zero hv] at h
      cases h
      exact .sleep hp hq hv
    · rw [Semaphore.P_of_ne_zero hv] at h
      cases h
      exact .pass hp hv
  · next hp =>
    cases h
    exact .note hp
  · cases h
  · next hp =>
    simp only [isHeldByCurrentThread, decide_eq_true_eq] at h
    split_ifs at h with hh <;> cases h
    · exact .checked hp hh
    · exact .fail hp hh
  · next hp =>
    cases h
    exact .clear hp
  · next hp =>
    cases h
    exact .leave hp

theorem step_moves (h : step s a = some s') : Moves s a.thread s' := by
  unfold step at h
  split_ifs at h
  cases a with
  | acquire t =>
    simp only [Option.ite_none_right_eq_some, Option.some.injEq] at h
    exact h.2 ▸ .call h.1
  | release t =>
    simp only [Option.ite_none_right_eq_some, Option.some.injEq] at h
    exact h.2 ▸ .callRelease h.1
  | run t => exact run_moves h

theorem Moves.phase_other (h : Moves s t s') (hu : u ≠ t) : s'.phase u = s.phase u := by
  cases h with
  | sleep _ _ _ | fail _ _ => rfl
  | _ => exact goto_phase_of_ne _ hu _

theorem run_others (h : run s t = some s') (hu : u ≠ t) : s'.phase u = s.phase u :=
  (run_moves h).phase_other hu

theorem Moves.releasing (h : Moves s t s')
    (hp : s.phase t = .releasing ∨ s.phase t = .clearing ∨ s.phase t = .leaving)
    (hout : s'.phase t ≠ .out) :
    s'.phase t = .releasing ∨ s'.phase t = .clearing ∨ s'.phase t = .leaving := by
  cases h <;> simp_all

theorem Moves.acquiring (h : Moves s t s') (hp : s.phase t = .acquiring ∨ s.phase t = .passed)
    (hheld : s'.phase t ≠ .held) : s'.phase t = .acquiring ∨ s'.phase t = .passed := by
  cases h <;> simp_all

/-- The token is in the semaphore or with the one thread inside, and `lockHolder` names a
thread exactly while that thread is between its two assignments. -/
structure Exclusive (s : System τ) : Prop where
  running : s.aborted = false
  token : (s.lock.semaphore.value = 1 ∧ ∀ t, (s.phase t).inside = false) ∨
    s.lock.semaphore.value = 0 ∧ ∃ t, (s.phase t).inside ∧ ∀ u, (s.phase u).inside → u = t
  holder : ∀ t, s.lock.lockHolder = some t ↔ (s.phase t).holds

omit [DecidableEq τ] in
theorem exclusive_start : Exclusive (start : System τ) where
  running := rfl
  token := .inl ⟨rfl, fun _ => rfl⟩
  holder := by simp [start, new, Phase.holds]

theorem Phase.inside_of_holds {p : Phase} (h : p.holds) : p.inside := by
  cases p <;> first | rfl | cases h

omit [DecidableEq τ] in
theorem Exclusive.unique (h : Exclusive s) (ht : (s.phase t).inside) (hu : (s.phase u).inside) :
    t = u := by
  rcases h.token with ⟨-, hnone⟩ | ⟨-, v, -, hv⟩
  · rw [hnone t] at ht
    cases ht
  · exact (hv t ht).trans (hv u hu).symm

omit [DecidableEq τ] in
theorem Exclusive.value_zero (h : Exclusive s) (ht : (s.phase t).inside) :
    s.lock.semaphore.value = 0 := by
  rcases h.token with ⟨-, hnone⟩ | ⟨hv, -⟩
  · rw [hnone t] at ht
    cases ht
  · exact hv

theorem token_goto (h : Exclusive s) {p : Phase} (hp : p.inside = (s.phase t).inside)
    {l : Lock τ} (hl : l.semaphore.value = s.lock.semaphore.value) :
    let s' := { s with lock := l }.goto t p
    (s'.lock.semaphore.value = 1 ∧ ∀ u, (s'.phase u).inside = false) ∨
      s'.lock.semaphore.value = 0 ∧
        ∃ v, (s'.phase v).inside ∧ ∀ u, (s'.phase u).inside → u = v := by
  intro s'
  have hin : ∀ u, (s'.phase u).inside = (s.phase u).inside := by
    intro u
    by_cases hu : u = t
    · subst hu
      exact (congrArg Phase.inside (goto_phase_self ..)).trans hp
    · exact congrArg Phase.inside (goto_phase_of_ne _ hu p)
  simp only [hin]
  exact hl ▸ h.token

/-- A thread changes its phase and `lockHolder` with it, or neither. -/
theorem holder_goto (h : Exclusive s) {p : Phase} {l : Lock τ}
    (hother : ∀ u, u ≠ t → (l.lockHolder = some u ↔ s.lock.lockHolder = some u))
    (hself : l.lockHolder = some t ↔ p.holds) (u : τ) :
    ({ s with lock := l }.goto t p).lock.lockHolder = some u ↔
      (({ s with lock := l }.goto t p).phase u).holds := by
  by_cases hu : u = t
  · subst hu
    rwa [goto_phase_self]
  · rw [goto_phase_of_ne _ hu]
    exact (hother u hu).trans (h.holder u)

omit [DecidableEq τ] in
theorem Exclusive.holder_eq (h : Exclusive s) (ht : (s.phase t).inside) (hu : u ≠ t) :
    s.lock.lockHolder ≠ some u := fun hh =>
  hu (h.unique (Phase.inside_of_holds ((h.holder u).mp hh)) ht)

theorem exclusive_moves (h : Exclusive s) (hm : Moves s t s') : Exclusive s' := by
  have hin : ∀ {p : Phase}, s.phase t = p → p.inside → (s.phase t).inside := by
    intro p hp hpi
    rwa [hp]
  cases hm with
  | call hp =>
    refine ⟨h.running, token_goto h (by rw [hp]; rfl) rfl, holder_goto h (fun _ _ => .rfl) ?_⟩
    rw [h.holder t, hp]
    rfl
  | sleep hp hq hv => exact ⟨h.running, h.token, h.holder⟩
  | pass hp hv =>
    -- the only way in: the token was there, so nobody is inside
    rcases h.token with ⟨hone, hnone⟩ | ⟨hzero, -⟩
    · refine ⟨h.running, .inr ⟨?_, t, by rw [goto_phase_self]; rfl, ?_⟩,
        holder_goto h (fun _ _ => .rfl) ?_⟩
      · show TwosComplement.wrap (s.lock.semaphore.value - 1) = 0
        rw [hone]
        rfl
      · intro u hu
        by_contra hne
        rw [goto_phase_of_ne _ hne] at hu
        rw [hnone u] at hu
        cases hu
      · rw [h.holder t, hp]
        rfl
    · exact absurd hzero hv
  | note hp =>
    have ht := hin hp rfl
    refine ⟨h.running, token_goto h (by rw [hp]; rfl) rfl, holder_goto h ?_ (by simp [Phase.holds])⟩
    intro u hu
    simp [h.holder_eq ht hu, Ne.symm hu]
  | callRelease hp =>
    refine ⟨h.running, token_goto h (by rw [hp]; rfl) rfl, holder_goto h (fun _ _ => .rfl) ?_⟩
    rw [h.holder t, hp]
    rfl
  | checked hp hh =>
    refine ⟨h.running, token_goto h (by rw [hp]; rfl) rfl, holder_goto h (fun _ _ => .rfl) ?_⟩
    rw [h.holder t, hp]
    rfl
  | fail hp hh => exact absurd ((h.holder t).mpr (by rw [hp]; rfl)) hh
  | clear hp =>
    have ht := hin hp rfl
    refine ⟨h.running, token_goto h (by rw [hp]; rfl) rfl, holder_goto h ?_ (by simp [Phase.holds])⟩
    intro u hu
    simp [h.holder_eq ht hu]
  | leave hp =>
    have ht := hin hp rfl
    refine ⟨h.running, .inl ⟨?_, ?_⟩, holder_goto h (fun _ _ => .rfl) ?_⟩
    · show TwosComplement.wrap (s.lock.semaphore.value + 1) = 1
      rw [h.value_zero ht]
      rfl
    · intro u
      by_cases hu : u = t
      · subst hu
        rw [goto_phase_self]
        rfl
      · rw [goto_phase_of_ne _ hu]
        exact Bool.eq_false_iff.mpr fun hui => hu (h.unique hui ht)
    · rw [h.holder t, hp]
      rfl

theorem exclusive_step (h : Exclusive s) (hs : step s a = some s') : Exclusive s' :=
  exclusive_moves h (step_moves hs)

/-- Whatever the interleaving: at most one thread is past `P` and before `V`, only that
thread can be `lockHolder`, the semaphore's value and the number of such threads add up
to one, and no `ASSERT` of `Release` fails. -/
theorem lock_excludes (h : Reach step (fun _ _ => True) (start : System τ) s) :
    (∀ t u, (s.phase t).inside → (s.phase u).inside → t = u) ∧
      (∀ t, s.lock.lockHolder = some t → (s.phase t).inside) ∧
      s.lock.semaphore.value + ({t | (s.phase t).inside}.ncard : Int) = 1 ∧
      s.aborted = false := by
  have he : Exclusive s := h.invariant exclusive_start fun _ _ _ hi _ hs => exclusive_step hi hs
  refine ⟨fun t u => he.unique, fun t ht => Phase.inside_of_holds ((he.holder t).mp ht), ?_,
    he.running⟩
  rcases he.token with ⟨hv, hnone⟩ | ⟨hv, t, ht, hu⟩
  · have hset : {t | (s.phase t).inside} = ∅ := by
      ext u
      simp [hnone u]
    rw [hset, hv, Set.ncard_empty]
    rfl
  · have hset : {t | (s.phase t).inside} = {t} := by
      ext u
      exact ⟨hu u, fun h => h ▸ ht⟩
    rw [hset, hv, Set.ncard_singleton]
    rfl

/-- Thread 2 sleeps in `Acquire` while thread 1 has the lock, and gets it after the `V`. -/
theorem lock_excludes_handover : ∃ s : System ℕ,
    exec step (fun _ _ => True) start [.acquire 1, .run 1, .acquire 2, .run 2, .run 1, .release 1,
      .run 1, .run 1, .run 1, .run 2] = some s ∧ (s.phase 2).inside ∧
      s.lock.semaphore.value + ({t | (s.phase t).inside}.ncard : Int) = 1 ∧
      s.aborted = false :=
  ⟨_, rfl, rfl, (lock_excludes (reach_of_exec [.acquire 1, .run 1, .acquire 2, .run 2, .run 1,
    .release 1, .run 1, .run 1, .run 1, .run 2] rfl)).2.2⟩

end Lock
end Nachos
