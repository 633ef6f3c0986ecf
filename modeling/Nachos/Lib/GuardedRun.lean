import Mathlib.Tactic

namespace GuardedRun

variable {σ α : Type*}

/-- The states of the runs from `s₀` all of whose steps satisfy the guard `ok`, which is read in
the state before the step. -/
inductive Reach (step : σ → α → Option σ) (ok : σ → α → Prop) (s₀ : σ) : σ → Prop
  | refl : Reach step ok s₀ s₀
  | tail {s s' : σ} {a : α} :
      Reach step ok s₀ s → ok s a → step s a = some s' → Reach step ok s₀ s'

variable {step : σ → α → Option σ} {ok : σ → α → Prop} {s₀ s : σ}

/-- What holds at the start and is kept by every guarded step holds along every run. -/
theorem Reach.invariant {I : σ → Prop} (h₀ : I s₀)
    (hstep : ∀ s a s', I s → ok s a → step s a = some s' → I s')
    (h : Reach step ok s₀ s) : I s := by
  induction h with
  | refl => exact h₀
  | tail _ hok hs ih => exact hstep _ _ _ ih hok hs

/-- Every invariant may be proved with the reachability of the source state at hand. -/
theorem Reach.invariant_of_reach {I : σ → Prop} (h₀ : I s₀)
    (hstep : ∀ s a s', Reach step ok s₀ s → I s → ok s a → step s a = some s' → I s')
    (h : Reach step ok s₀ s) : I s := by
  induction h with
  | refl => exact h₀
  | tail hr hok hs ih => exact hstep _ _ _ hr ih hok hs

theorem Reach.single {s' : σ} {a : α} (hok : ok s a) (hs : step s a = some s') :
    Reach step ok s s' := .tail .refl hok hs

theorem Reach.trans {s₁ s₂ : σ} (h₁ : Reach step ok s₀ s₁) (h₂ : Reach step ok s₁ s₂) :
    Reach step ok s₀ s₂ := by
  induction h₂ with
  | refl => exact h₁
  | tail _ hok hs ih => exact .tail ih hok hs

/-- The run of a list of actions; it stops at a step that is not enabled or not allowed. -/
def exec (step : σ → α → Option σ) (ok : σ → α → Prop) [∀ s a, Decidable (ok s a)]
    (s : σ) : List α → Option σ
  | [] => some s
  | a :: as => if ok s a then (step s a).bind fun s' => exec step ok s' as else none

theorem reach_of_exec_from [∀ s a, Decidable (ok s a)] (as : List α) {s s' : σ}
    (hr : Reach step ok s₀ s) (h : exec step ok s as = some s') : Reach step ok s₀ s' := by
  induction as generalizing s with
  | nil => exact (Option.some.inj h) ▸ hr
  | cons a as ih =>
    simp only [exec] at h
    split_ifs at h with hok
    obtain ⟨u, hu, h'⟩ := Option.bind_eq_some_iff.mp h
    exact ih (hr.tail hok hu) h'

theorem reach_of_exec [∀ s a, Decidable (ok s a)] (as : List α) {s' : σ}
    (h : exec step ok s₀ as = some s') : Reach step ok s₀ s' :=
  reach_of_exec_from as .refl h

end GuardedRun
