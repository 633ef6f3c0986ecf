import Nachos.Lib.GuardedRun
import Nachos.Lib.TwosComplement

namespace Nachos
open GuardedRun TwosComplement

/-- `value` and the threads asleep in `P`, in the order in which they will be woken. -/
structure Semaphore (τ : Type*) where
  value : Int
  queue : List τ
  deriving DecidableEq, Repr

namespace Semaphore

variable {τ : Type*}

def new (initialValue : Int) : Semaphore τ := ⟨initialValue, []⟩

/-- One test of `while (value == 0)` by thread `t`: it either joins the queue and
sleeps, or consumes the value.  The flag says whether `P` is through.  Interrupts are off, so
the test is atomic; whoever is woken by a `V` tests again when it next runs. -/
def P (σ : Semaphore τ) (t : τ) : Semaphore τ × Bool :=
  if σ.value = 0 then ({ σ with queue := σ.queue ++ [t] }, false)
  else ({ σ with value := wrap (σ.value - 1) }, true)

/-- The second component is the thread handed to `Scheduler::ReadyToRun`, if any. -/
def V (σ : Semaphore τ) : Semaphore τ × Option τ :=
  ({ value := wrap (σ.value + 1), queue := σ.queue.tail }, σ.queue.head?)

theorem P_of_zero {σ : Semaphore τ} (h : σ.value = 0) (t : τ) :
    σ.P t = ({ σ with queue := σ.queue ++ [t] }, false) := if_pos h

theorem P_of_ne_zero {σ : Semaphore τ} (h : σ.value ≠ 0) (t : τ) :
    σ.P t = ({ σ with value := wrap (σ.value - 1) }, true) := if_neg h

theorem P_pass_value {σ : Semaphore τ} {t : τ} (h0 : 0 ≤ σ.value) (h1 : σ.value ≤ intMax)
    (h : (σ.P t).2 = true) : 0 < σ.value ∧ (σ.P t).1.value = σ.value - 1 := by
  unfold P at h ⊢
  unfold intMax at h1
  split_ifs at h ⊢ with hz
  exact ⟨by omega, wrap_of_range (by omega) (by omega)⟩

theorem P_sleep {σ : Semaphore τ} {t : τ} (h : (σ.P t).2 = false) :
    σ.value = 0 ∧ (σ.P t).1 = { σ with queue := σ.queue ++ [t] } := by
  unfold P at h ⊢
  split_ifs at h ⊢ with hz
  exact ⟨hz, rfl⟩

theorem P_pass_queue {σ : Semaphore τ} {t : τ} (h : (σ.P t).2 = true) :
    (σ.P t).1.queue = σ.queue := by
  unfold P at h ⊢
  split_ifs at h ⊢ with hz
  rfl

theorem V_value {σ : Semaphore τ} (h0 : 0 ≤ σ.value) (h1 : σ.value < intMax) :
    σ.V.1.value = σ.value + 1 := by
  unfold intMax at h1
  exact wrap_of_range (by omega) (by omega)

/-- A semaphore with the threads `V` has woken and that have not run since, and the
number of completed `P` and `V` calls. -/
structure Usage (τ : Type*) where
  sem : Semaphore τ
  woken : List τ
  passed : ℕ
  raised : ℕ
  deriving DecidableEq, Repr

inductive Act (τ : Type*) where
  | callP (t : τ)
  | resume (t : τ)
  | callV
  deriving DecidableEq, Repr

namespace Usage

def start (initialValue : Int) : Usage τ := ⟨new initialValue, [], 0, 0⟩

def test (w : Usage τ) (t : τ) : Usage τ :=
  let r := w.sem.P t
  { w with sem := r.1, passed := if r.2 then w.passed + 1 else w.passed }

/-- A thread asleep or woken is inside `P`; any other thread may call it. -/
def step [DecidableEq τ] (w : Usage τ) : Act τ → Option (Usage τ)
  | .callP t => if t ∈ w.sem.queue ∨ t ∈ w.woken then none else some (w.test t)
  | .resume t =>
    if t ∈ w.woken then some ({ w with woken := w.woken.erase t }.test t) else none
  | .callV =>
    let r := w.sem.V
    some { w with sem := r.1, woken := w.woken ++ r.2.toList, raised := w.raised + 1 }

/-- No `V` is executed while the `int` value is at its maximum. -/
def NoOverflow (w : Usage τ) (a : Act τ) : Prop := a = .callV → w.sem.value ≠ intMax

instance [DecidableEq τ] (w : Usage τ) (a : Act τ) : Decidable (NoOverflow w a) :=
  inferInstanceAs (Decidable (a = .callV → w.sem.value ≠ intMax))

/-- The value counts the calls, and the queue waits only while every token there is
has a woken thread under way to it. -/
structure Balanced (initialValue : Int) (w : Usage τ) : Prop where
  count : w.sem.value = initialValue + w.raised - w.passed
  nonneg : 0 ≤ w.sem.value
  bounded : w.sem.value ≤ intMax
  noLostWakeup : w.sem.queue ≠ [] → w.sem.value ≤ w.woken.length

theorem balanced_start {initialValue : Int} (h0 : 0 ≤ initialValue)
    (h1 : initialValue ≤ intMax) : Balanced initialValue (start initialValue : Usage τ) where
  count := by simp [start, new]
  nonneg := h0
  bounded := h1
  noLostWakeup := by simp [start, new]

theorem balanced_test {initialValue : Int} {w : Usage τ} (h : Balanced initialValue w) (t : τ)
    (ws : List τ) (hw : w.woken.length ≤ ws.length + 1) :
    Balanced initialValue ({ w with woken := ws }.test t) := by
  obtain ⟨hc, h0, h1, hq⟩ := h
  cases hb : (w.sem.P t).2 with
  | true =>
    obtain ⟨hpos, hv⟩ := P_pass_value h0 h1 hb
    have hqu := P_pass_queue hb
    refine ⟨?_, ?_, ?_, ?_⟩ <;> simp only [test, hb, hv, hqu, if_true]
    · push_cast
      omega
    · omega
    · omega
    · intro hne
      have := hq hne
      omega
  | false =>
    obtain ⟨hz, hs⟩ := P_sleep hb
    refine ⟨?_, ?_, ?_, ?_⟩ <;> simp only [test, hb, hs, Bool.false_eq_true, if_false]
    · exact hc
    · exact h0
    · exact h1
    · intro _
      omega

theorem balanced_step [DecidableEq τ] {initialValue : Int} {w w' : Usage τ} {a : Act τ}
    (h : Balanced initialValue w) (hok : NoOverflow w a) (hs : step w a = some w') :
    Balanced initialValue w' := by
  cases a with
  | callP t =>
    simp only [step] at hs
    split_ifs at hs
    cases hs
    exact balanced_test h t w.woken (by omega)
  | resume t =>
    simp only [step] at hs
    split_ifs at hs with ht
    cases hs
    have hlen := List.length_erase_of_mem ht
    exact balanced_test h t (w.woken.erase t) (by omega)
  | callV =>
    simp only [step, Option.some.injEq] at hs
    subst hs
    obtain ⟨hc, h0, h1, hq⟩ := h
    have hlt : w.sem.value < intMax := lt_of_le_of_ne h1 (hok rfl)
    have hv := V_value h0 hlt
    refine ⟨?_, ?_, ?_, ?_⟩
    · simp only [hv]; push_cast; omega
    · simp only [hv]; omega
    · simp only [hv]; omega
    · -- the queue was non-empty before, and its head is now among the woken
      intro hne
      cases hqueue : w.sem.queue with
      | nil => simp [V, hqueue] at hne
      | cons u us =>
        have := hq (by simp [hqueue])
        simp only [hv, List.length_append]
        simp only [V, hqueue, List.head?_cons, Option.toList_some, List.length_singleton]
        push_cast
        omega

/-- Whatever threads and handlers do, the value is the initial value plus the
completed `V`s minus the completed `P`s, and no wakeup is lost. -/
theorem value_counts_calls [DecidableEq τ] (initialValue : Int) (h0 : 0 ≤ initialValue)
    (h1 : initialValue ≤ intMax) {w : Usage τ}
    (h : Reach step NoOverflow (start initialValue) w) :
    w.sem.value = initialValue + w.raised - w.passed ∧ 0 ≤ w.sem.value ∧
      (w.sem.queue ≠ [] → w.sem.value ≤ w.woken.length) := by
  have hb : Balanced initialValue w :=
    h.invariant (balanced_start h0 h1) fun _ _ _ hi hok hs => balanced_step hi hok hs
  exact ⟨hb.count, hb.nonneg, hb.noLostWakeup⟩

/-- A thread sleeps, is woken, finds its token stolen and sleeps again. -/
theorem value_counts_calls_stolen_token :
    ∃ w : Usage ℕ, exec step NoOverflow (start 0)
        [.callP 1, .callV, .callP 2, .resume 1] = some w ∧ w.sem.queue = [1] ∧
      (w.sem.value = 0 + w.raised - w.passed ∧ 0 ≤ w.sem.value ∧
        (w.sem.queue ≠ [] → w.sem.value ≤ w.woken.length)) :=
  ⟨_, rfl, rfl, value_counts_calls 0 (by decide) (by decide)
    (reach_of_exec [.callP 1, .callV, .callP 2, .resume 1] rfl)⟩

/-- At the largest initial value a single `V` overflows the `int` value. -/
theorem value_overflows_at_intMax :
    ∃ w : Usage ℕ, Reach step (fun _ _ => True) (start intMax) w ∧
      ¬ (w.sem.value = intMax + w.raised - w.passed ∧ 0 ≤ w.sem.value ∧
        (w.sem.queue ≠ [] → w.sem.value ≤ w.woken.length)) :=
  ⟨_, reach_of_exec [.callV] rfl, by decide⟩

end Usage
end Semaphore
end Nachos
