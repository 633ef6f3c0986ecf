import Nachos.Lock
import Nachos.Lib.TicketQueue

namespace Nachos
open GuardedRun

namespace Condition

/-- The statement a thread is at.  The flag of the statements of `Signal` says that
`Broadcast` has called it. -/
inductive Pc (τ : Type*) where
  /-- In none of the three calls. -/
  | user
  /-- `Wait`: the `ASSERT`, `new Semaphore`, `waitQueue->Append`, and then the three calls
  `conditionLock->Release()`, `waiter->P()`, `conditionLock->Acquire()` and `delete waiter`. -/
  | waitAssert
  | waitNew
  | waitAppend
  | waitRelease
  | waitP
  | waitAcquire
  | waitDelete
  /-- `Signal`: the `ASSERT`, `IsEmpty`, `RemoveFront` and `waiter->V()`. -/
  | sigAssert (b : Bool)
  | sigTest (b : Bool)
  | sigRemove (b : Bool)
  | sigV (b : Bool) (waiter : τ)
  /-- `Broadcast`: `while (!waitQueue->IsEmpty())`. -/
  | bcTest
  deriving DecidableEq, Repr

/-- A condition and its lock with all their threads.  The last three components are history:
the waiters in the order of their arrival, how many had been released and how many had
arrived when a thread last called `Signal` or `Broadcast`, and the waiter that is off
`waitQueue` while its `V` is still to come.  The semaphore of a `Wait` lives from its `new` to
its `delete` and is named after the thread whose call that is. -/
structure System (τ : Type*) where
  locks : Lock.System τ
  waitQueue : List τ
  waiter : τ → Option (Semaphore τ)
  pc : τ → Pc τ
  aborted : Bool
  tickets : TicketQueue τ
  mark : τ → ℕ × ℕ
  picked : Option τ

inductive Act (τ : Type*) where
  | acquire (t : τ)
  | release (t : τ)
  | wait (t : τ)
  | signal (t : τ)
  | broadcast (t : τ)
  | run (t : τ)
  deriving DecidableEq, Repr

def Act.thread {τ : Type*} : Act τ → τ
  | .acquire t | .release t | .wait t | .signal t | .broadcast t | .run t => t

variable {τ : Type*}

def start : System τ :=
  ⟨Lock.start, [], fun _ => none, fun _ => .user, false, .empty, fun _ => (0, 0), none⟩

section steps
variable [DecidableEq τ]

namespace System

@[simps pc]
def goto (s : System τ) (t : τ) (p : Pc τ) : System τ := { s with pc := Function.update s.pc t p }

def abort (s : System τ) : System τ := { s with aborted := true }

def setWaiter (s : System τ) (t : τ) (σ : Option (Semaphore τ)) : System τ :=
  { s with waiter := Function.update s.waiter t σ }

def callAcquire (s : System τ) (t : τ) : System τ := { s with locks := s.locks.goto t .acquiring }

def callRelease (s : System τ) (t : τ) : System τ := { s with locks := s.locks.goto t .releasing }

def callWait (s : System τ) (t : τ) : System τ := s.goto t .waitAssert

def setMark (s : System τ) (t : τ) : System τ :=
  { s with mark := Function.update s.mark t (s.tickets.released, s.tickets.arrived) }

def callSignal (s : System τ) (t : τ) : System τ := (s.setMark t).goto t (.sigAssert false)

def callBroadcast (s : System τ) (t : τ) : System τ := (s.setMark t).goto t .bcTest

end System

def afterSignal (b : Bool) : Pc τ := if b then .bcTest else .user

/-- A statement inside `Acquire` or `Release`; the call is over once the thread is at `done`
in the lock, and `next` follows it. -/
def runLock (s : System τ) (t : τ) (done : Lock.Phase) (next : Pc τ) : Option (System τ) :=
  (Lock.run s.locks t).map fun l =>
    let s' := { s with locks := l }
    if l.phase t = done then s'.goto t next else s'

/-- The next statement of thread `t`; there is none if it is asleep or the caller's turn. -/
def run (s : System τ) (t : τ) : Option (System τ) :=
  match s.pc t with
  | .user => (Lock.run s.locks t).map fun l => { s with locks := l }
  | .waitAssert =>
    some (if s.locks.lock.isHeldByCurrentThread t then s.goto t .waitNew else s.abort)
  | .waitNew => some ((s.setWaiter t (some (.new 0))).goto t .waitAppend)
  | .waitAppend =>
    some (if t ∈ s.waitQueue then s.abort
      else ({ s with
        waitQueue := s.waitQueue ++ [t]
        tickets := s.tickets.arrive t }.callRelease t).goto t .waitRelease)
  | .waitRelease => runLock s t .out .waitP
  | .waitP =>
    match s.waiter t with
    | none => some s.abort
    | some σ =>
      if t ∈ σ.queue then none
      else
        let r := σ.P t
        let s' := s.setWaiter t (some r.1)
        some (if r.2 then (s'.callAcquire t).goto t .waitAcquire else s')
  | .waitAcquire => runLock s t .held .waitDelete
  | .waitDelete =>
    some (({ s with tickets := s.tickets.leave t }.setWaiter t none).goto t .user)
  | .sigAssert b =>
    some (if s.locks.lock.isHeldByCurrentThread t then s.goto t (.sigTest b) else s.abort)
  | .sigTest b => some (s.goto t (if s.waitQueue = [] then afterSignal b else .sigRemove b))
  | .sigRemove b =>
    match s.waitQueue with
    | [] => some s.abort
    | u :: queue => some ({ s with waitQueue := queue, picked := some u }.goto t (.sigV b u))
  | .sigV b u =>
    match s.waiter u with
    | none => some s.abort
    | some σ =>
      some (({ s with picked := none, tickets := s.tickets.release }.setWaiter u
        (some σ.V.1)).goto t (afterSignal b))
  | .bcTest => some (s.goto t (if s.waitQueue = [] then .user else .sigAssert true))

def halted (s : System τ) : Bool := s.aborted || s.locks.aborted

def step (s : System τ) (a : Act τ) : Option (System τ) :=
  if halted s then none
  else
    match a with
    | .acquire t =>
      if s.pc t = .user ∧ s.locks.phase t = .out then some (s.callAcquire t) else none
    | .release t =>
      if s.pc t = .user ∧ s.locks.phase t = .held then some (s.callRelease t) else none
    | .wait t => if s.pc t = .user ∧ s.locks.phase t = .held then some (s.callWait t) else none
    | .signal t => if s.pc t = .user ∧ s.locks.phase t = .held then some (s.callSignal t) else none
    | .broadcast t =>
      if s.pc t = .user ∧ s.locks.phase t = .held then some (s.callBroadcast t) else none
    | .run t => run s t

variable {s s' : System τ} {t u v : τ} {a : Act τ}

inductive Fails (s : System τ) (t : τ) : Prop
  | wait : s.pc t = .waitAssert → s.locks.lock.lockHolder ≠ some t → Fails s t
  | append : s.pc t = .waitAppend → t ∈ s.waitQueue → Fails s t
  | sleep : s.pc t = .waitP → s.waiter t = none → Fails s t
  | signal (b : Bool) : s.pc t = .sigAssert b → s.locks.lock.lockHolder ≠ some t → Fails s t
  | remove (b : Bool) : s.pc t = .sigRemove b → s.waitQueue = [] → Fails s t
  | raise (b : Bool) (u : τ) : s.pc t = .sigV b u → s.waiter u = none → Fails s t

/-- All a thread can do, with what the step has found. -/
inductive Moves (s : System τ) (t : τ) : System τ → Prop
  | fail : Fails s t → Moves s t s.abort
  | lock (l : Lock.System τ) : s.pc t = .user → Lock.Moves s.locks t l →
      Moves s t { s with locks := l }
  | callWait : s.pc t = .user → s.locks.phase t = .held → Moves s t (s.callWait t)
  | callSignal : s.pc t = .user → s.locks.phase t = .held → Moves s t (s.callSignal t)
  | callBroadcast : s.pc t = .user → s.locks.phase t = .held → Moves s t (s.callBroadcast t)
  | waitChecked : s.pc t = .waitAssert → Moves s t (s.goto t .waitNew)
  | alloc : s.pc t = .waitNew → Moves s t ((s.setWaiter t (some (.new 0))).goto t .waitAppend)
  | append : s.pc t = .waitAppend → Moves s t
      (({ s with
        waitQueue := s.waitQueue ++ [t]
        tickets := s.tickets.arrive t }.callRelease t).goto t .waitRelease)
  | releasing (l : Lock.System τ) : s.pc t = .waitRelease → Lock.Moves s.locks t l →
      l.phase t ≠ .out → Moves s t { s with locks := l }
  | released (l : Lock.System τ) : s.pc t = .waitRelease → Lock.Moves s.locks t l →
      l.phase t = .out → Moves s t ({ s with locks := l }.goto t .waitP)
  | sleep (σ : Semaphore τ) : s.pc t = .waitP → s.waiter t = some σ → t ∉ σ.queue → σ.value = 0 →
      Moves s t (s.setWaiter t (some { σ with queue := σ.queue ++ [t] }))
  | pass (σ : Semaphore τ) : s.pc t = .waitP → s.waiter t = some σ → t ∉ σ.queue → σ.value ≠ 0 →
      Moves s t (((s.setWaiter t (some { σ with
        value := TwosComplement.wrap (σ.value - 1) })).callAcquire t).goto t .waitAcquire)
  | acquiring (l : Lock.System τ) : s.pc t = .waitAcquire → Lock.Moves s.locks t l →
      l.phase t ≠ .held → Moves s t { s with locks := l }
  | acquired (l : Lock.System τ) : s.pc t = .waitAcquire → Lock.Moves s.locks t l →
      l.phase t = .held → Moves s t ({ s with locks := l }.goto t .waitDelete)
  | delete : s.pc t = .waitDelete → Moves s t
      (({ s with tickets := s.tickets.leave t }.setWaiter t none).goto t .user)
  | sigChecked (b : Bool) : s.pc t = .sigAssert b → Moves s t (s.goto t (.sigTest b))
  | sigEmpty (b : Bool) : s.pc t = .sigTest b → s.waitQueue = [] →
      Moves s t (s.goto t (afterSignal b))
  | sigFound (b : Bool) : s.pc t = .sigTest b → s.waitQueue ≠ [] →
      Moves s t (s.goto t (.sigRemove b))
  | remove (b : Bool) (u : τ) (queue : List τ) : s.pc t = .sigRemove b → s.waitQueue = u :: queue →
      Moves s t ({ s with waitQueue := queue, picked := some u }.goto t (.sigV b u))
  | raise (b : Bool) (u : τ) (σ : Semaphore τ) : s.pc t = .sigV b u → s.waiter u = some σ →
      Moves s t (({ s with picked := none, tickets := s.tickets.release }.setWaiter u
        (some σ.V.1)).goto t (afterSignal b))
  | bcEmpty : s.pc t = .bcTest → s.waitQueue = [] → Moves s t (s.goto t .user)
  | bcFound : s.pc t = .bcTest → s.waitQueue ≠ [] → Moves s t (s.goto t (.sigAssert true))

theorem runLock_cases {done : Lock.Phase} {next : Pc τ} (h : runLock s t done next = some s') :
    ∃ l, Lock.Moves s.locks t l ∧
      ((l.phase t = done ∧ s' = { s with locks := l }.goto t next) ∨
        l.phase t ≠ done ∧ s' = { s with locks := l }) := by
  unfold runLock at h
  obtain ⟨l, hl, rfl⟩ := Option.map_eq_some_iff.mp h
  refine ⟨l, Lock.run_moves hl, ?_⟩
  by_cases hp : l.phase t = done
  · exact .inl ⟨hp, if_pos hp⟩
  · exact .inr ⟨hp, if_neg hp⟩

theorem run_moves (h : run s t = some s') : Moves s t s' := by
  -- the cases of `run`, in the order of its statements
  unfold run at h
  split at h
  · next hp =>
    obtain ⟨l, hl, rfl⟩ := Option.map_eq_some_iff.mp h
    exact .lock l hp (Lock.run_moves hl)
  · next hp =>
    simp only [Lock.isHeldByCurrentThread, decide_eq_true_eq, Option.some.injEq] at h
    split_ifs at h with hh <;> subst h
    · exact .waitChecked hp
    · exact .fail (.wait hp hh)
  · next hp =>
    cases h
    exact .alloc hp
  · next hp =>
    rw [Option.some.injEq] at h
    split_ifs at h with hq <;> subst h
    · exact .fail (.append hp hq)
    · exact .append hp
  · next hp =>
    obtain ⟨l, hl, ⟨hd, rfl⟩ | ⟨hd, rfl⟩⟩ := runLock_cases h
    · exact .released l hp hl hd
    · exact .releasing l hp hl hd
  · next hp =>
    split at h
    · next hw =>
      cases h
      exact .fail (.sleep hp hw)
    · next σ hw =>
      split_ifs at h with hq
      by_cases hv : σ.value = 0
      · rw [Semaphore.P_of_zero hv] at h
        cases h
        exact .sleep σ hp hw hq hv
      · rw [Semaphore.P_of_ne_zero hv] at h
        cases h
        exact .pass σ hp hw hq hv
  · next hp =>
    obtain ⟨l, hl, ⟨hd, rfl⟩ | ⟨hd, rfl⟩⟩ := runLock_cases h
    · exact .acquired l hp hl hd
    · exact .acquiring l hp hl hd
  · next hp =>
    cases h
    exact .delete hp
  · next b hp =>
    simp only [Lock.isHeldByCurrentThread, decide_eq_true_eq, Option.some.injEq] at h
    split_ifs at h with hh <;> subst h
    · exact .sigChecked b hp
    · exact .fail (.signal b hp hh)
  · next b hp =>
    rw [Option.some.injEq] at h
    split_ifs at h with hq <;> subst h
    · exact .sigEmpty b hp hq
    · exact .sigFound b hp hq
  · next b hp =>
    split at h
    · next hq =>
      cases h
      exact .fail (.remove b hp hq)
    · next u queue hq =>
      cases h
      exact .remove b u queue hp hq
  · next b u hp =>
    split at h
    · next hw =>
      cases h
      exact .fail (.raise b u hp hw)
    · next σ hw =>
      cases h
      exact .raise b u σ hp hw
  · next hp =>
    rw [Option.some.injEq] at h
    split_ifs at h with hq <;> subst h
    · exact .bcEmpty hp hq
    · exact .bcFound hp hq

theorem step_moves (h : step s a = some s') : Moves s a.thread s' := by
  unfold step at h
  split_ifs at h
  cases a with
  | run t => exact run_moves h
  | acquire t =>
    simp only [Option.ite_none_right_eq_some, Option.some.injEq] at h
    exact h.2 ▸ .lock _ h.1.1 (.call h.1.2)
  | release t =>
    simp only [Option.ite_none_right_eq_some, Option.some.injEq] at h
    exact h.2 ▸ .lock _ h.1.1 (.callRelease h.1.2)
  | wait t =>
    simp only [Option.ite_none_right_eq_some, Option.some.injEq] at h
    exact h.2 ▸ .callWait h.1.1 h.1.2
  | signal t =>
    simp only [Option.ite_none_right_eq_some, Option.some.injEq] at h
    exact h.2 ▸ .callSignal h.1.1 h.1.2
  | broadcast t =>
    simp only [Option.ite_none_right_eq_some, Option.some.injEq] at h
    exact h.2 ▸ .callBroadcast h.1.1 h.1.2

end steps

variable {s s' : System τ} {t u v : τ}

structure View (τ : Type*) where
  released : ℕ
  arrived : ℕ
  waitQueue : List τ
  picked : Option τ

def System.view (s : System τ) : View τ :=
  ⟨s.tickets.released, s.tickets.arrived, s.waitQueue, s.picked⟩

/-- The note of a `Signal` is up to date until its `V`; that of a `Broadcast` is so for the
arrivals. -/
def Marked (m : ℕ × ℕ) (x : View τ) : Bool → Prop
  | false => m = (x.released, x.arrived)
  | true => m.1 ≤ x.released ∧ m.2 = x.arrived

/-- What is the case for a thread at statement `p`: its phase `f` at the lock, its semaphore,
its stage as a waiter and its note. -/
def LocalAt (t : τ) (p : Pc τ) (f : Lock.Phase) (waiter : Option (Semaphore τ)) (g : Stage)
    (m : ℕ × ℕ) (x : View τ) : Prop :=
  match p with
  | .user => waiter = none ∧ g = .out
  | .waitAssert | .waitNew => f = .held ∧ waiter = none ∧ g = .out
  | .waitAppend => f = .held ∧ waiter = some (.new 0) ∧ g = .out
  | .waitRelease => (f = .releasing ∨ f = .clearing ∨ f = .leaving) ∧
      (waiter = some ⟨0, []⟩ ∧ g = .inLine ∨ waiter = some ⟨1, []⟩ ∧ g = .freed)
  | .waitP => f = .out ∧
      ((waiter = some ⟨0, []⟩ ∨ waiter = some ⟨0, [t]⟩) ∧ g = .inLine ∨
        waiter = some ⟨1, []⟩ ∧ g = .freed)
  | .waitAcquire => (f = .acquiring ∨ f = .passed) ∧ waiter = some ⟨0, []⟩ ∧ g = .freed
  | .waitDelete => f = .held ∧ waiter = some ⟨0, []⟩ ∧ g = .freed
  | .sigAssert b | .sigTest b => f = .held ∧ waiter = none ∧ g = .out ∧ Marked m x b
  | .sigRemove b => f = .held ∧ waiter = none ∧ g = .out ∧ Marked m x b ∧ x.waitQueue ≠ []
  | .sigV b u => f = .held ∧ waiter = none ∧ g = .out ∧ Marked m x b ∧ x.picked = some u
  | .bcTest => f = .held ∧ waiter = none ∧ g = .out ∧ Marked m x true

def Local (s : System τ) (t : τ) : Prop :=
  LocalAt t (s.pc t) (s.locks.phase t) (s.waiter t) (s.tickets.stage t) (s.mark t) s.view

structure Inv (s : System τ) : Prop where
  locks : Lock.Exclusive s.locks
  running : s.aborted = false
  place : ∀ t, Local s t
  tickets : s.tickets.Ok
  line : s.tickets.line = s.picked.toList ++ s.waitQueue
  picker : ∀ u, s.picked = some u → ∃ t b, s.pc t = .sigV b u

theorem inv_start : Inv (start : System τ) where
  locks := Lock.exclusive_start
  running := rfl
  place _ := ⟨rfl, rfl⟩
  tickets := TicketQueue.ok_empty
  line := rfl
  picker _ h := by cases h

theorem LocalAt.of_not_held {p : Pc τ} {f : Lock.Phase} {σ : Option (Semaphore τ)} {g : Stage}
    {m : ℕ × ℕ} {x y : View τ} (h : LocalAt t p f σ g m x) (hf : f ≠ .held) :
    LocalAt t p f σ g m y := by
  cases p <;> simp_all [LocalAt]

/-- All that belongs to threads other than `t` is as it was. -/
structure Others (s s' : System τ) (t : τ) : Prop where
  pc : ∀ u ≠ t, s'.pc u = s.pc u
  phase : ∀ u ≠ t, s'.locks.phase u = s.locks.phase u
  waiter : ∀ u ≠ t, s'.waiter u = s.waiter u
  stage : ∀ u ≠ t, s'.tickets.stage u = s.tickets.stage u
  mark : ∀ u ≠ t, s'.mark u = s.mark u

theorem Local.frame (h : Local s u) (hpc : s'.pc u = s.pc u)
    (hphase : s'.locks.phase u = s.locks.phase u) (hwaiter : s'.waiter u = s.waiter u)
    (hstage : s'.tickets.stage u = s.tickets.stage u) (hmark : s'.mark u = s.mark u)
    (hview : s'.view = s.view ∨ s.locks.phase u ≠ .held) : Local s' u := by
  unfold Local
  rw [hpc, hphase, hwaiter, hstage, hmark]
  rcases hview with hview | hf
  · rw [hview]
    exact h
  · exact h.of_not_held hf

theorem Inv.held_unique (h : Inv s) (ht : s.locks.phase t = .held) (hu : u ≠ t) :
    s.locks.phase u ≠ .held := fun hf =>
  hu (h.locks.unique (by rw [hf]; rfl) (by rw [ht]; rfl))

theorem Inv.others (h : Inv s) (ho : Others s s' t)
    (hview : s'.view = s.view ∨ s.locks.phase t = .held) (hu : u ≠ t) : Local s' u := by
  refine (h.place u).frame (ho.pc u hu) (ho.phase u hu) (ho.waiter u hu) (ho.stage u hu)
    (ho.mark u hu) ?_
  exact hview.imp_right fun ht => h.held_unique ht hu

theorem Inv.at (h : Inv s) {p : Pc τ} (hp : s.pc t = p) :
    LocalAt t p (s.locks.phase t) (s.waiter t) (s.tickets.stage t) (s.mark t) s.view :=
  hp ▸ h.place t

theorem Inv.picked_none (h : Inv s) (ht : s.locks.phase t = .held)
    (hp : ∀ b u, s.pc t ≠ .sigV b u) : s.picked = none := by
  cases hk : s.picked with
  | none => rfl
  | some u =>
    obtain ⟨v, b, hv⟩ := h.picker u hk
    have hvt : v = t := by
      by_contra hne
      exact h.held_unique ht hne (h.at hv).1
    exact absurd (hvt ▸ hv) (hp b u)

/-- No statement fails. -/
theorem Inv.not_fails (h : Inv s) : ¬Fails s t := by
  intro hf
  cases hf with
  | wait hp hh => exact hh ((h.locks.holder t).mpr (by rw [(h.at hp).1]; rfl))
  | append hp hq =>
    have hline : t ∈ s.tickets.line := by
      rw [h.line]
      exact List.mem_append_right _ hq
    have hstage := (h.tickets.inLine t).mpr hline
    rw [(h.at hp).2.2] at hstage
    cases hstage
  | sleep hp hw =>
    have hwaiter := (h.at hp).2
    rw [hw] at hwaiter
    simp at hwaiter
  | signal b hp hh => exact hh ((h.locks.holder t).mpr (by rw [(h.at hp).1]; rfl))
  | remove b hp hq => exact (h.at hp).2.2.2.2 hq
  | raise b u hp hw =>
    have hline : u ∈ s.tickets.line := by
      rw [h.line, show s.picked = some u from (h.at hp).2.2.2.2]
      exact List.mem_cons_self
    have hstage := (h.tickets.inLine u).mpr hline
    have hu := h.place u
    unfold Local at hu
    rw [hstage, hw] at hu
    cases hpu : s.pc u <;> simp [hpu, LocalAt] at hu

theorem not_sigV_of_eq {p : Pc τ} (h : s.pc t = p) (hp : ∀ b u, p ≠ .sigV b u) (b : Bool) (u : τ) :
    s.pc t ≠ .sigV b u := h ▸ hp b u

/-- The semaphore of a thread in the line, and what `V` makes of it. -/
theorem Inv.waiter_of_inLine (h : Inv s) (hu : s.tickets.stage u = .inLine) :
    (s.waiter u = some ⟨0, []⟩ ∨ s.waiter u = some ⟨0, [u]⟩) ∧
      ∀ m x, LocalAt u (s.pc u) (s.locks.phase u) (some ⟨1, []⟩) .freed m x := by
  have hloc := h.place u
  unfold Local at hloc
  rw [hu] at hloc
  cases hp : s.pc u <;> simp_all [LocalAt]

theorem inv_quiet (h : Inv s) (ho : Others s s' t) (hl : Lock.Exclusive s'.locks)
    (hrun : s'.aborted = s.aborted) (hview : s'.view = s.view) (htickets : s'.tickets = s.tickets)
    (hp : ∀ b u, s.pc t ≠ .sigV b u) (hself : Local s' t) : Inv s' where
  locks := hl
  running := hrun.trans h.running
  place u := by
    by_cases hu : u = t
    · exact hu ▸ hself
    · exact h.others ho (.inl hview) hu
  tickets := htickets ▸ h.tickets
  line := by
    rw [htickets, show s'.picked = s.picked from congrArg View.picked hview,
      show s'.waitQueue = s.waitQueue from congrArg View.waitQueue hview]
    exact h.line
  picker u hu := by
    obtain ⟨v, b, hv⟩ := h.picker u ((congrArg View.picked hview).symm.trans hu)
    have hne : v ≠ t := fun he => hp b u (he ▸ hv)
    exact ⟨v, b, (ho.pc v hne).trans hv⟩

variable [DecidableEq τ] {a : Act τ}

theorem inv_goto (h : Inv s) {p : Pc τ} (hp : ∀ b u, s.pc t ≠ .sigV b u)
    (hself : LocalAt t p (s.locks.phase t) (s.waiter t) (s.tickets.stage t) (s.mark t) s.view) :
    Inv (s.goto t p) := by
  refine inv_quiet h ⟨fun u hu => Function.update_of_ne hu .., fun _ _ => rfl, fun _ _ => rfl,
    fun _ _ => rfl, fun _ _ => rfl⟩ h.locks rfl rfl rfl hp ?_
  unfold Local
  rw [System.goto_pc, Function.update_self]
  exact hself

theorem inv_lock (h : Inv s) {l : Lock.System τ} (hl : Lock.Moves s.locks t l)
    (hp : ∀ b u, s.pc t ≠ .sigV b u)
    (hself : LocalAt t (s.pc t) (l.phase t) (s.waiter t) (s.tickets.stage t) (s.mark t) s.view) :
    Inv { s with locks := l } :=
  inv_quiet h ⟨fun _ _ => rfl, fun _ hu => hl.phase_other hu, fun _ _ => rfl, fun _ _ => rfl,
    fun _ _ => rfl⟩ (Lock.exclusive_moves h.locks hl) rfl rfl rfl hp hself

theorem inv_lock_goto (h : Inv s) {l : Lock.System τ} (hl : Lock.Moves s.locks t l) {p : Pc τ}
    (hp : ∀ b u, s.pc t ≠ .sigV b u)
    (hself : LocalAt t p (l.phase t) (s.waiter t) (s.tickets.stage t) (s.mark t) s.view) :
    Inv ({ s with locks := l }.goto t p) := by
  refine inv_quiet h ⟨fun u hu => Function.update_of_ne hu .., fun _ hu => hl.phase_other hu,
    fun _ _ => rfl, fun _ _ => rfl, fun _ _ => rfl⟩ (Lock.exclusive_moves h.locks hl) rfl rfl rfl
    hp ?_
  unfold Local
  rw [System.goto_pc, Function.update_self]
  exact hself

theorem setWaiter_self (s : System τ) (t : τ) (σ : Option (Semaphore τ)) :
    (s.setWaiter t σ).waiter t = σ := Function.update_self ..

theorem setWaiter_of_ne (s : System τ) (σ : Option (Semaphore τ)) (h : u ≠ t) :
    (s.setWaiter t σ).waiter u = s.waiter u := Function.update_of_ne h ..

theorem inv_append (h : Inv s) (hp : s.pc t = .waitAppend) :
    Inv ((({ s with waitQueue := s.waitQueue ++ [t], tickets := s.tickets.arrive t } :
      System τ).callRelease t).goto t .waitRelease) := by
  obtain ⟨hf, hw, hg⟩ := h.at hp
  refine ⟨Lock.exclusive_moves h.locks (.callRelease hf), h.running, fun u => ?_,
    h.tickets.arrive hg, ?_, fun u hu => ?_⟩
  · by_cases hu : u = t
    · subst hu
      unfold Local
      rw [System.goto_pc, Function.update_self]
      exact ⟨.inl (Lock.goto_phase_self ..), .inl ⟨hw, Function.update_self ..⟩⟩
    · exact h.others ⟨fun u hu => Function.update_of_ne hu ..,
        fun u hu => Lock.goto_phase_of_ne _ hu _, fun _ _ => rfl,
        fun u hu => Function.update_of_ne hu .., fun _ _ => rfl⟩ (.inr hf) hu
  · show s.tickets.line ++ [t] = s.picked.toList ++ (s.waitQueue ++ [t])
    rw [h.line, List.append_assoc]
  · obtain ⟨v, b, hv⟩ := h.picker u hu
    have hne : v ≠ t := by
      rintro rfl
      rw [hp] at hv
      cases hv
    exact ⟨v, b, (Function.update_of_ne hne ..).trans hv⟩

theorem inv_delete (h : Inv s) (hp : s.pc t = .waitDelete) :
    Inv ((({ s with tickets := s.tickets.leave t } : System τ).setWaiter t none).goto t .user) := by
  obtain ⟨hf, hw, hg⟩ := h.at hp
  refine ⟨h.locks, h.running, fun u => ?_, h.tickets.leave hg, h.line, fun u hu => ?_⟩
  · by_cases hu : u = t
    · subst hu
      unfold Local
      rw [System.goto_pc, Function.update_self]
      exact ⟨setWaiter_self .., Function.update_self ..⟩
    · exact h.others ⟨fun u hu => Function.update_of_ne hu .., fun _ _ => rfl,
        fun u hu => setWaiter_of_ne _ _ hu, fun u hu => Function.update_of_ne hu ..,
        fun _ _ => rfl⟩ (.inl rfl) hu
  · obtain ⟨v, b, hv⟩ := h.picker u hu
    have hne : v ≠ t := by
      rintro rfl
      rw [hp] at hv
      cases hv
    exact ⟨v, b, (Function.update_of_ne hne ..).trans hv⟩

theorem inv_remove (h : Inv s) {b : Bool} {queue : List τ} (hp : s.pc t = .sigRemove b)
    (hq : s.waitQueue = u :: queue) :
    Inv (({ s with waitQueue := queue, picked := some u } : System τ).goto t (.sigV b u)) := by
  obtain ⟨hf, hw, hg, hm, -⟩ := h.at hp
  have hpicked := h.picked_none hf (not_sigV_of_eq hp (by simp))
  refine ⟨h.locks, h.running, fun v => ?_, h.tickets, ?_, fun v hv => ?_⟩
  · by_cases hv : v = t
    · subst hv
      unfold Local
      rw [System.goto_pc, Function.update_self]
      exact ⟨hf, hw, hg, hm, rfl⟩
    · exact h.others ⟨fun u hu => Function.update_of_ne hu .., fun _ _ => rfl, fun _ _ => rfl,
        fun _ _ => rfl, fun _ _ => rfl⟩ (.inr hf) hv
  · show s.tickets.line = u :: queue
    rw [h.line, hpicked, hq]
    rfl
  · obtain rfl : u = v := Option.some.inj hv
    exact ⟨t, b, Function.update_self ..⟩

theorem inv_raise (h : Inv s) {b : Bool} {σ : Semaphore τ} (hp : s.pc t = .sigV b u)
    (hw : s.waiter u = some σ) :
    Inv ((({ s with picked := none, tickets := s.tickets.release } : System τ).setWaiter u
      (some σ.V.1)).goto t (afterSignal b)) := by
  obtain ⟨hf, hwt, hg, hm, hk⟩ := h.at hp
  -- the waiter is the first of the line: its semaphore gets the token and it leaves the line
  have hline : s.tickets.line = u :: s.waitQueue := by
    rw [h.line, show s.picked = some u from hk]
    rfl
  have hin : s.tickets.stage u = .inLine := by
    rw [h.tickets.inLine, hline]
    exact List.mem_cons_self
  have hne : u ≠ t := by
    rintro rfl
    rw [hg] at hin
    cases hin
  have hrelease := TicketQueue.release_cons hline
  obtain ⟨hσ, hloc⟩ := h.waiter_of_inLine hin
  have hraised : σ.V.1 = ⟨1, []⟩ := by
    rw [hw] at hσ
    rcases hσ with hσ | hσ <;> rw [Option.some.inj hσ] <;> rfl
  refine ⟨h.locks, h.running, fun v => ?_, h.tickets.release hline, ?_, fun v hv => by cases hv⟩
  · -- the caller, the waiter and the others
    by_cases hv : v = t
    · subst hv
      unfold Local
      rw [System.goto_pc, Function.update_self]
      show LocalAt v (afterSignal b) (s.locks.phase v) (Function.update s.waiter u _ v)
        (s.tickets.release.stage v) (s.mark v) _
      rw [Function.update_of_ne hne.symm, TicketQueue.release_stage_of_ne hline hne.symm, hf, hwt,
        hg]
      cases b with
      | false => exact ⟨rfl, rfl⟩
      | true =>
        refine ⟨rfl, rfl, rfl, ?_⟩
        have hle := hm.1
        have harr := hm.2
        simp only [System.view] at hle harr
        show _ ≤ s.tickets.release.released ∧ _ = s.tickets.release.arrived
        rw [hrelease]
        exact ⟨Nat.le_succ_of_le hle, harr⟩
    · by_cases hvu : v = u
      · subst hvu
        unfold Local
        rw [System.goto_pc, Function.update_of_ne hv]
        show LocalAt v (s.pc v) (s.locks.phase v) (Function.update s.waiter v _ v)
          (s.tickets.release.stage v) (s.mark v) _
        rw [Function.update_self, TicketQueue.release_stage_self hline, hraised]
        exact hloc _ _
      · exact (h.place v).frame (Function.update_of_ne hv ..) rfl (setWaiter_of_ne _ _ hvu)
          (TicketQueue.release_stage_of_ne hline hvu) rfl (.inr (h.held_unique hf hv))
  · show s.tickets.release.line = s.waitQueue
    rw [hrelease]

theorem inv_moves (h : Inv s) (hm : Moves s t s') : Inv s' := by
  cases hm with
  | fail hf => exact absurd hf h.not_fails
  | lock l hp hl =>
    refine inv_lock h hl (not_sigV_of_eq hp (by simp)) ?_
    rw [hp]
    exact h.at hp
  | callWait hp hf =>
    exact inv_goto h (not_sigV_of_eq hp (by simp)) ⟨hf, h.at hp⟩
  | callSignal hp hf =>
    refine inv_quiet h ⟨fun u hu => Function.update_of_ne hu .., fun _ _ => rfl, fun _ _ => rfl,
      fun _ _ => rfl, fun u hu => Function.update_of_ne hu ..⟩ h.locks rfl rfl rfl
      (not_sigV_of_eq hp (by simp)) ?_
    unfold Local System.callSignal
    rw [System.goto_pc, Function.update_self]
    exact ⟨hf, (h.at hp).1, (h.at hp).2, Function.update_self ..⟩
  | callBroadcast hp hf =>
    refine inv_quiet h ⟨fun u hu => Function.update_of_ne hu .., fun _ _ => rfl, fun _ _ => rfl,
      fun _ _ => rfl, fun u hu => Function.update_of_ne hu ..⟩ h.locks rfl rfl rfl
      (not_sigV_of_eq hp (by simp)) ?_
    have hmark : (s.callBroadcast t).mark t = (s.tickets.released, s.tickets.arrived) :=
      Function.update_self ..
    unfold Local
    rw [hmark]
    unfold System.callBroadcast
    rw [System.goto_pc, Function.update_self]
    exact ⟨hf, (h.at hp).1, (h.at hp).2, le_rfl, rfl⟩
  | waitChecked hp =>
    have hloc := h.at hp
    exact inv_goto h (not_sigV_of_eq hp (by simp)) hloc
  | alloc hp =>
    obtain ⟨hf, -, hg⟩ := h.at hp
    refine inv_quiet h ⟨fun u hu => Function.update_of_ne hu .., fun _ _ => rfl,
      fun u hu => setWaiter_of_ne _ _ hu, fun _ _ => rfl, fun _ _ => rfl⟩ h.locks rfl rfl rfl
      (not_sigV_of_eq hp (by simp)) ?_
    unfold Local
    rw [System.goto_pc, Function.update_self]
    exact ⟨hf, setWaiter_self .., hg⟩
  | append hp => exact inv_append h hp
  | releasing l hp hl hd =>
    refine inv_lock h hl (not_sigV_of_eq hp (by simp)) ?_
    rw [hp]
    exact ⟨hl.releasing (h.at hp).1 hd, (h.at hp).2⟩
  | released l hp hl hd =>
    refine inv_lock_goto h hl (not_sigV_of_eq hp (by simp)) ⟨hd, ?_⟩
    exact (h.at hp).2.imp_left fun hw => ⟨.inl hw.1, hw.2⟩
  | sleep σ hp hw hq hv =>
    -- with a token the thread would not have gone to sleep
    obtain ⟨hf, hloc⟩ := h.at hp
    refine inv_quiet h ⟨fun _ _ => rfl, fun _ _ => rfl, fun u hu => setWaiter_of_ne _ _ hu,
      fun _ _ => rfl, fun _ _ => rfl⟩ h.locks rfl rfl rfl (not_sigV_of_eq hp (by simp)) ?_
    unfold Local
    rw [setWaiter_self, show (s.setWaiter t _).pc t = .waitP from hp]
    rw [hw] at hloc
    rcases hloc with ⟨hσ | hσ, hg⟩ | ⟨hσ, -⟩ <;> cases hσ
    · exact ⟨hf, .inl ⟨.inr rfl, hg⟩⟩
    · exact absurd (List.mem_singleton_self t) hq
    · cases hv
  | pass σ hp hw hq hv =>
    obtain ⟨hf, hloc⟩ := h.at hp
    refine inv_quiet h ⟨fun u hu => Function.update_of_ne hu ..,
      fun u hu => Lock.goto_phase_of_ne _ hu _, fun u hu => setWaiter_of_ne _ _ hu,
      fun _ _ => rfl, fun _ _ => rfl⟩ (Lock.exclusive_moves h.locks (.call hf)) rfl rfl rfl
      (not_sigV_of_eq hp (by simp)) ?_
    unfold Local
    rw [System.goto_pc, Function.update_self]
    rw [hw] at hloc
    rcases hloc with ⟨hσ | hσ, -⟩ | ⟨hσ, hg⟩ <;> cases hσ
    · exact absurd rfl hv
    · exact absurd rfl hv
    · exact ⟨.inl (Lock.goto_phase_self ..), setWaiter_self .., hg⟩
  | acquiring l hp hl hd =>
    refine inv_lock h hl (not_sigV_of_eq hp (by simp)) ?_
    rw [hp]
    exact ⟨hl.acquiring (h.at hp).1 hd, (h.at hp).2⟩
  | acquired l hp hl hd =>
    exact inv_lock_goto h hl (not_sigV_of_eq hp (by simp)) ⟨hd, (h.at hp).2⟩
  | delete hp => exact inv_delete h hp
  | sigChecked b hp =>
    have hloc := h.at hp
    exact inv_goto h (not_sigV_of_eq hp (by simp)) hloc
  | sigEmpty b hp hq =>
    obtain ⟨hf, hw, hg, hm⟩ := h.at hp
    cases b with
    | false => exact inv_goto h (not_sigV_of_eq hp (by simp)) ⟨hw, hg⟩
    | true => exact inv_goto h (not_sigV_of_eq hp (by simp)) ⟨hf, hw, hg, hm⟩
  | sigFound b hp hq =>
    obtain ⟨hf, hw, hg, hm⟩ := h.at hp
    exact inv_goto h (not_sigV_of_eq hp (by simp)) ⟨hf, hw, hg, hm, hq⟩
  | remove b u queue hp hq => exact inv_remove h hp hq
  | raise b u σ hp hw => exact inv_raise h hp hw
  | bcEmpty hp hq =>
    exact inv_goto h (not_sigV_of_eq hp (by simp)) ⟨(h.at hp).2.1, (h.at hp).2.2.1⟩
  | bcFound hp hq =>
    have hloc := h.at hp
    exact inv_goto h (not_sigV_of_eq hp (by simp)) hloc

theorem inv_step (h : Inv s) (hs : step s a = some s') : Inv s' := inv_moves h (step_moves hs)

/-- In `Wait`, on the queue or taken off it, and not past the `P`. -/
def Pc.blocked : Pc τ → Bool
  | .waitRelease | .waitP => true
  | _ => false

/-- The semaphore of the `Wait` has its token and the caller does not sleep on it. -/
def Released (s : System τ) (u : τ) : Prop := ∃ σ, s.waiter u = some σ ∧ σ.value = 1 ∧ u ∉ σ.queue

/-- The calls that return with the step from `s` to `s'`. -/
def SignalReturns (s : System τ) (t : τ) (s' : System τ) : Prop :=
  (s.pc t = .sigTest false ∨ ∃ u, s.pc t = .sigV false u) ∧ run s t = some s' ∧ s'.pc t = .user

def BroadcastReturns (s : System τ) (t : τ) (s' : System τ) : Prop :=
  s.pc t = .bcTest ∧ run s t = some s' ∧ s'.pc t = .user

def WaitReturns (s : System τ) (t : τ) (s' : System τ) : Prop :=
  s.pc t = .waitDelete ∧ run s t = some s' ∧ s'.pc t = .user

/-- Tickets number the waiters in the order in which they came to the queue. -/
structure SignalsKept (s : System τ) : Prop where
  /-- Released are those with the first tickets, whether they have reached their `P` or not. -/
  released_iff : ∀ u, (s.pc u).blocked →
    (Released s u ↔ s.tickets.ticket u < s.tickets.released)
  /-- The `V` of a `Signal` releases one waiter, none of the unreleased ones being older. -/
  raise : ∀ t b u s', s.pc t = .sigV b u → run s t = some s' → (s.pc u).blocked ∧ ¬Released s u ∧
    Released s' u ∧ s'.tickets.released = s.tickets.released + 1 ∧
    (∀ v, (s.pc v).blocked → ¬Released s v → s.tickets.ticket u ≤ s.tickets.ticket v) ∧
    ∀ v ≠ u, s'.waiter v = s.waiter v
  /-- Only that `V` releases anybody. -/
  released_step : ∀ a s', step s a = some s' → s'.tickets.released ≠ s.tickets.released →
    ∃ b u, s.pc a.thread = .sigV b u
  /-- A `Signal` has released one waiter if there was one when it was called, and else none. -/
  signal : ∀ t s', SignalReturns s t s' →
    s'.tickets.released = (s.mark t).1 + if (s.mark t).1 < (s.mark t).2 then 1 else 0
  /-- A `Broadcast` has released all that had come when it was called, and no others. -/
  broadcast : ∀ t s', BroadcastReturns s t s' → s'.tickets.released = (s.mark t).2
  /-- A `Wait` returns to a waiter that has been released, with the lock. -/
  wait : ∀ t s', WaitReturns s t s' → s.tickets.ticket t < s.tickets.released ∧
    s.tickets.ticket t ∉ s.tickets.returned ∧ s'.tickets.returned =
      s.tickets.ticket t :: s.tickets.returned ∧ s'.locks.lock.lockHolder = some t
  /-- Every return has a release of its own. -/
  matched : s.tickets.returned.Nodup ∧ ∀ k ∈ s.tickets.returned, k < s.tickets.released

omit [DecidableEq τ] in
theorem Inv.blocked_cases (h : Inv s) (hu : (s.pc u).blocked) :
    (s.tickets.stage u = .inLine ∧ ¬Released s u) ∨
      (s.tickets.stage u = .freed ∧ Released s u) := by
  have hloc := h.place u
  unfold Local at hloc
  cases hp : s.pc u <;> simp_all [LocalAt, Pc.blocked, Released] <;> grind

omit [DecidableEq τ] in
theorem Inv.released_iff (h : Inv s) (hu : (s.pc u).blocked) :
    Released s u ↔ s.tickets.ticket u < s.tickets.released := by
  rcases h.blocked_cases hu with ⟨hg, hr⟩ | ⟨hg, hr⟩ <;>
    rw [← h.tickets.freed_iff (by simp [hg]), hg] <;> simp [hr]

omit [DecidableEq τ] in
theorem Inv.blocked_of_inLine (h : Inv s) (hu : s.tickets.stage u = .inLine) :
    (s.pc u).blocked := by
  have hloc := h.place u
  unfold Local at hloc
  cases hp : s.pc u <;> simp_all [LocalAt, Pc.blocked]

omit [DecidableEq τ] in
theorem Inv.all_released (h : Inv s) (hf : s.locks.phase t = .held)
    (hp : ∀ b u, s.pc t ≠ .sigV b u) (hq : s.waitQueue = []) :
    s.tickets.released = s.tickets.arrived := by
  rw [← h.tickets.line_eq_nil_iff, h.line, h.picked_none hf hp, hq]
  rfl

omit [DecidableEq τ] in
/-- The waiter a `Signal` is about to raise is the oldest one. -/
theorem Inv.picked_oldest (h : Inv s) {b : Bool} (hp : s.pc t = .sigV b u) :
    s.tickets.line = u :: s.waitQueue ∧ s.tickets.stage u = .inLine ∧
      s.tickets.ticket u = s.tickets.released := by
  have hline : s.tickets.line = u :: s.waitQueue := by
    rw [h.line, show s.picked = some u from (h.at hp).2.2.2.2]
    rfl
  refine ⟨hline, ?_, (h.tickets.head hline).1⟩
  rw [h.tickets.inLine, hline]
  exact List.mem_cons_self

theorem released_step (hs : step s a = some s')
    (hne : s'.tickets.released ≠ s.tickets.released) : ∃ b u, s.pc a.thread = .sigV b u := by
  cases step_moves hs with
  | raise b u σ hp _ => exact ⟨b, u, hp⟩
  | _ => exact absurd rfl hne

theorem Inv.run_sigV (h : Inv s) {b : Bool} (hp : s.pc t = .sigV b u) (hrun : run s t = some s') :
    s'.tickets = s.tickets.release ∧ s'.waiter = Function.update s.waiter u (some ⟨1, []⟩) := by
  obtain ⟨-, hin, -⟩ := h.picked_oldest hp
  obtain ⟨hσ | hσ, -⟩ := h.waiter_of_inLine hin <;>
  · simp only [run, hp, hσ, Option.some.injEq] at hrun
    subst hrun
    exact ⟨rfl, rfl⟩

theorem Inv.raise (h : Inv s) {b : Bool} (hp : s.pc t = .sigV b u) (hrun : run s t = some s') :
    (s.pc u).blocked ∧ ¬Released s u ∧ Released s' u ∧
      s'.tickets.released = s.tickets.released + 1 ∧
      (∀ v, (s.pc v).blocked → ¬Released s v → s.tickets.ticket u ≤ s.tickets.ticket v) ∧
      ∀ v ≠ u, s'.waiter v = s.waiter v := by
  obtain ⟨hline, hin, hticket⟩ := h.picked_oldest hp
  obtain ⟨htickets, hwaiter⟩ := h.run_sigV hp hrun
  have hblocked : (s.pc u).blocked := h.blocked_of_inLine hin
  refine ⟨hblocked, ?_, ⟨⟨1, []⟩, ?_, rfl, List.not_mem_nil⟩, ?_, fun v hv hr => ?_, fun v hv => ?_⟩
  · rw [h.released_iff hblocked]
    omega
  · rw [hwaiter]
    exact Function.update_self ..
  · rw [htickets, TicketQueue.release_cons hline]
  · rw [h.released_iff hv] at hr
    omega
  · rw [hwaiter]
    exact Function.update_of_ne hv ..

theorem Inv.signal_returns (h : Inv s) (hs : SignalReturns s t s') :
    s'.tickets.released = (s.mark t).1 + if (s.mark t).1 < (s.mark t).2 then 1 else 0 := by
  obtain ⟨hp | ⟨u, hp⟩, hrun, hpc⟩ := hs
  · obtain ⟨hf, -, -, hm⟩ := h.at hp
    simp only [run, hp, Option.some.injEq] at hrun
    subst hrun
    rw [System.goto_pc, Function.update_self] at hpc
    have hq : s.waitQueue = [] := by
      by_contra hq
      rw [if_neg hq] at hpc
      cases hpc
    have hall := h.all_released hf (not_sigV_of_eq hp (by simp)) hq
    have hmark : s.mark t = (s.tickets.released, s.tickets.arrived) := hm
    rw [hmark, if_neg (show ¬(_, _).1 < (_, _).2 from hall.not_lt)]
    rfl
  · obtain ⟨hf, -, -, hm, -⟩ := h.at hp
    obtain ⟨hline, -, -⟩ := h.picked_oldest hp
    have hlen := h.tickets.length_line
    rw [hline, List.length_cons] at hlen
    have hmark : s.mark t = (s.tickets.released, s.tickets.arrived) := hm
    have hlt : (s.tickets.released, s.tickets.arrived).1 <
        (s.tickets.released, s.tickets.arrived).2 := by
      dsimp only
      omega
    rw [hmark, if_pos hlt]
    exact (h.raise hp hrun).2.2.2.1

theorem Inv.broadcast_returns (h : Inv s) (hs : BroadcastReturns s t s') :
    s'.tickets.released = (s.mark t).2 := by
  obtain ⟨hp, hrun, hpc⟩ := hs
  obtain ⟨hf, -, -, -, hm⟩ := h.at hp
  simp only [run, hp, Option.some.injEq] at hrun
  subst hrun
  rw [System.goto_pc, Function.update_self] at hpc
  have hq : s.waitQueue = [] := by
    by_contra hq
    rw [if_neg hq] at hpc
    cases hpc
  exact (h.all_released hf (not_sigV_of_eq hp (by simp)) hq).trans hm.symm

theorem Inv.wait_returns (h : Inv s) (hs : WaitReturns s t s') :
    s.tickets.ticket t < s.tickets.released ∧ s.tickets.ticket t ∉ s.tickets.returned ∧
      s'.tickets.returned = s.tickets.ticket t :: s.tickets.returned ∧
      s'.locks.lock.lockHolder = some t := by
  obtain ⟨hp, hrun, -⟩ := hs
  obtain ⟨hf, -, hg⟩ := h.at hp
  simp only [run, hp, Option.some.injEq] at hrun
  subst hrun
  refine ⟨h.tickets.freed t hg, fun hmem => (h.tickets.returned _ hmem).2 t hg rfl, rfl, ?_⟩
  exact (h.locks.holder t).mpr (by rw [hf]; rfl)

/-- In every interleaving: signals release the waiters in the order of their arrival, one
each and all of them for a broadcast, and `Wait` returns only to the released. -/
theorem condition_loses_no_signal (h : Reach step (fun _ _ => True) (start : System τ) s) :
    SignalsKept s := by
  have hi : Inv s := h.invariant inv_start fun _ _ _ hi _ hs => inv_step hi hs
  exact {
    released_iff := fun u => hi.released_iff
    raise := fun t b u s' => hi.raise
    released_step := fun a s' => released_step
    signal := fun t s' => hi.signal_returns
    broadcast := fun t s' => hi.broadcast_returns
    wait := fun t s' => hi.wait_returns
    matched := ⟨hi.tickets.nodup, fun k hk => (hi.tickets.returned k hk).1⟩ }

/-- Thread 1 has given up the lock in `Wait` and not reached its `P` when thread 2 signals. -/
theorem condition_loses_no_signal_early : ∃ s : System ℕ,
    Reach step (fun _ _ => True) start s ∧ s.pc 1 = .waitP ∧ s.tickets.released = 1 ∧
      SignalsKept s := by
  have hrun : (exec step (fun _ _ => True) (start : System ℕ)
      [.acquire 1, .run 1, .run 1, .wait 1, .run 1, .run 1, .run 1, .run 1, .run 1, .run 1,
        .acquire 2, .run 2, .run 2, .signal 2, .run 2, .run 2, .run 2, .run 2]).map
        (fun s => (s.pc 1, s.tickets.released)) = some (.waitP, 1) := by
    decide +kernel
  obtain ⟨s, hs, hfacts⟩ := Option.map_eq_some_iff.mp hrun
  exact ⟨s, reach_of_exec _ hs, congrArg Prod.fst hfacts, congrArg Prod.snd hfacts,
    condition_loses_no_signal (reach_of_exec _ hs)⟩

def Pc.inSignal : Pc τ → Bool
  | .sigAssert false | .sigTest false | .sigRemove false | .sigV false _ => true
  | _ => false

def Pc.entering : Pc τ → Bool
  | .waitAssert | .waitNew | .waitAppend => true
  | _ => false

def Pc.waiting : Pc τ → Bool
  | .waitRelease | .waitP | .waitAcquire | .waitDelete => true
  | _ => false

omit [DecidableEq τ] in
theorem Pc.not_waiting_of_entering {p : Pc τ} (h : p.entering) : ¬p.waiting := by
  cases p <;> simp_all [Pc.entering, Pc.waiting]

omit [DecidableEq τ] in
theorem Inv.held_of_inSignal (h : Inv s) (hp : (s.pc t).inSignal) : s.locks.phase t = .held := by
  have hloc := h.place t
  unfold Local at hloc
  cases hpc : s.pc t <;> simp_all [LocalAt, Pc.inSignal]

theorem Moves.others (h : Moves s t s') (hu : u ≠ t) :
    s'.pc u = s.pc u ∧ s'.locks.phase u = s.locks.phase u := by
  cases h with
  | fail _ => exact ⟨rfl, rfl⟩
  | lock l _ hl | releasing l _ hl _ | acquiring l _ hl _ => exact ⟨rfl, hl.phase_other hu⟩
  | released l _ hl _ | acquired l _ hl _ => exact ⟨Function.update_of_ne hu .., hl.phase_other hu⟩
  | append _ | pass _ _ _ _ _ => exact ⟨Function.update_of_ne hu .., Lock.goto_phase_of_ne _ hu _⟩
  | sleep _ _ _ _ _ => exact ⟨rfl, rfl⟩
  | _ => exact ⟨Function.update_of_ne hu .., rfl⟩

theorem run_user (hp : s.pc t = .user) (h : run s t = some s') :
    ∃ l, Lock.Moves s.locks t l ∧ s' = { s with locks := l } := by
  simp only [run, hp] at h
  obtain ⟨l, hl, rfl⟩ := Option.map_eq_some_iff.mp h
  exact ⟨l, Lock.run_moves hl, rfl⟩

/-- A `Signal` goes on, or it returns having found nobody or having released the oldest. -/
theorem Inv.run_signal (h : Inv s) (hp : (s.pc t).inSignal) (hrun : run s t = some s') :
    ((s'.pc t).inSignal ∧ s'.tickets = s.tickets) ∨
      (s'.pc t = .user ∧ s'.locks.phase t = .held ∧
        (s'.tickets = s.tickets ∧ s.tickets.released = s.tickets.arrived ∨
          s'.tickets.released = s.tickets.released + 1 ∧ s'.tickets.arrived = s.tickets.arrived ∧
            s'.tickets.returned = s.tickets.returned)) := by
  cases run_moves hrun with
  | fail hf => exact absurd hf h.not_fails
  | sigChecked b hb =>
    rw [hb] at hp
    cases b with
    | true => cases hp
    | false => exact .inl ⟨by rw [System.goto_pc, Function.update_self]; rfl, rfl⟩
  | sigEmpty b hb hq =>
    rw [hb] at hp
    have hf := (h.at hb).1
    cases b with
    | true => cases hp
    | false =>
      exact .inr ⟨Function.update_self .., hf, .inl ⟨rfl,
        h.all_released hf (not_sigV_of_eq hb (by simp)) hq⟩⟩
  | sigFound b hb hq =>
    rw [hb] at hp
    cases b with
    | true => cases hp
    | false => exact .inl ⟨by rw [System.goto_pc, Function.update_self]; rfl, rfl⟩
  | remove b u queue hb hq =>
    rw [hb] at hp
    cases b with
    | true => cases hp
    | false => exact .inl ⟨by rw [System.goto_pc, Function.update_self]; rfl, rfl⟩
  | raise b u σ hb hw =>
    rw [hb] at hp
    have hf := (h.at hb).1
    -- the waiter that was taken off the queue is still the first in the line
    have hline := (h.picked_oldest hb).1
    cases b with
    | true => cases hp
    | false =>
      refine .inr ⟨Function.update_self .., hf, .inr ?_⟩
      show s.tickets.release.released = _ ∧ s.tickets.release.arrived = _ ∧
        s.tickets.release.returned = _
      rw [TicketQueue.release_cons hline]
      exact ⟨rfl, rfl, rfl⟩
  | _ => simp_all [Pc.inSignal]

/-- A `Wait` comes to the queue, goes on, or returns with the lock. -/
theorem Inv.run_wait (h : Inv s) (hp : (s.pc t).entering ∨ (s.pc t).waiting)
    (hrun : run s t = some s') :
    ((s.pc t).entering ∧ (s'.pc t).entering ∧ s'.locks.phase t = .held ∧ s'.tickets = s.tickets) ∨
      ((s.pc t).entering ∧ (s'.pc t).waiting ∧ s'.tickets = s.tickets.arrive t) ∨
      ((s.pc t).waiting ∧ (s'.pc t).waiting ∧ s'.tickets = s.tickets) ∨
      (s.pc t = .waitDelete ∧ s'.pc t = .user ∧ s'.locks.phase t = .held ∧
        s'.tickets = s.tickets.leave t) := by
  cases run_moves hrun with
  | fail hf => exact absurd hf h.not_fails
  | waitChecked hb =>
    have hf := (h.at hb).1
    exact .inl ⟨by rw [hb]; rfl, by rw [System.goto_pc, Function.update_self]; rfl, hf, rfl⟩
  | alloc hb =>
    have hf := (h.at hb).1
    exact .inl ⟨by rw [hb]; rfl, by rw [System.goto_pc, Function.update_self]; rfl, hf, rfl⟩
  | append hb =>
    exact .inr (.inl ⟨by rw [hb]; rfl, by rw [System.goto_pc, Function.update_self]; rfl, rfl⟩)
  | releasing l hb _ _ | acquiring l hb _ _ =>
    have hw : (s.pc t).waiting := by
      rw [hb]
      rfl
    exact .inr (.inr (.inl ⟨hw, hw, rfl⟩))
  | released l hb _ _ | acquired l hb _ _ =>
    refine .inr (.inr (.inl ⟨by rw [hb]; rfl, ?_, rfl⟩))
    rw [System.goto_pc, Function.update_self]
    rfl
  | sleep σ hb _ _ _ =>
    have hw : (s.pc t).waiting := by
      rw [hb]
      rfl
    exact .inr (.inr (.inl ⟨hw, hw, rfl⟩))
  | pass σ hb _ _ _ =>
    refine .inr (.inr (.inl ⟨by rw [hb]; rfl, ?_, rfl⟩))
    rw [System.goto_pc, Function.update_self]
    rfl
  | delete hb =>
    have hf := (h.at hb).1
    exact .inr (.inr (.inr ⟨hb, Function.update_self .., hf, rfl⟩))
  | _ => simp_all [Pc.entering, Pc.waiting]

/-- A waiter without its signal, and one that has it and has not come back. -/
def Unsignalled (s : System τ) (u : τ) : Prop := (s.pc u).blocked ∧ ¬Released s u

def Signalled (s : System τ) (u : τ) : Prop :=
  (s.pc u).blocked ∧ Released s u ∨ s.pc u = .waitAcquire ∨ s.pc u = .waitDelete

omit [DecidableEq τ] in
theorem Inv.unsignalled_iff (h : Inv s) : Unsignalled s u ↔ s.tickets.stage u = .inLine := by
  constructor
  · rintro ⟨hb, hr⟩
    exact ((h.blocked_cases hb).resolve_right fun hc => hr hc.2).1
  · intro hu
    have hb := h.blocked_of_inLine hu
    refine ⟨hb, ?_⟩
    rcases h.blocked_cases hb with hc | hc
    · exact hc.2
    · rw [hu] at hc
      cases hc.1

omit [DecidableEq τ] in
theorem Inv.signalled_iff (h : Inv s) : Signalled s u ↔ s.tickets.stage u = .freed := by
  constructor
  · rintro (⟨hb, hr⟩ | hp | hp)
    · exact ((h.blocked_cases hb).resolve_left fun hc => hc.2 hr).1
    · exact (h.at hp).2.2
    · exact (h.at hp).2.2
  · intro hu
    by_cases hb : (s.pc u).blocked
    · refine .inl ⟨hb, ?_⟩
      rcases h.blocked_cases hb with hc | hc
      · rw [hu] at hc
        cases hc.1
      · exact hc.2
    · have hloc := h.place u
      unfold Local at hloc
      rw [hu] at hloc
      right
      cases hp : s.pc u <;> simp_all [LocalAt, Pc.blocked]

end Condition
end Nachos
