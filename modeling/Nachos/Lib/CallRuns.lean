import Mathlib.Tactic.Common

namespace CallRuns
variable {σ α κ ρ : Type} {m : Type → Type} [Monad m]

/-- A call returns a reply and the next state, in some monad; a specification refuses with `none`
the calls that are not allowed. -/
def run (step : σ → κ → m (ρ × σ)) : σ → List κ → m (List ρ × σ)
  | s, [] => pure ([], s)
  | s, c :: cs => do
    let r ← step s c
    let t ← run step r.2 cs
    pure (r.1 :: t.1, t.2)

theorem run_cons_eq_some {spec : α → κ → Option (ρ × α)} {a a' : α} {c : κ} {cs : List κ}
    {rs : List ρ} (h : run spec a (c :: cs) = some (rs, a')) :
    ∃ r a₁ rs', spec a c = some (r, a₁) ∧ run spec a₁ cs = some (rs', a') ∧ rs = r :: rs' := by
  obtain ⟨⟨r, a₁⟩, hc, hrest⟩ := Option.bind_eq_some_iff.mp h
  obtain ⟨⟨rs', a₂⟩, hcs, heq⟩ := Option.bind_eq_some_iff.mp hrest
  obtain ⟨rfl, rfl⟩ := Prod.mk.inj (Option.some.inj heq)
  exact ⟨r, a₁, rs', hc, hcs, rfl⟩

theorem run_refines [LawfulMonad m] {step : σ → κ → m (ρ × σ)} {spec : α → κ → Option (ρ × α)}
    {R : σ → α → Prop} (hstep : ∀ s a c r a', R s a → spec a c = some (r, a') →
      ∃ s', step s c = pure (r, s') ∧ R s' a')
    {s : σ} {a a' : α} {cs : List κ} {rs : List ρ} (hs : R s a)
    (hrun : run spec a cs = some (rs, a')) : ∃ s', run step s cs = pure (rs, s') ∧ R s' a' := by
  induction cs generalizing s a rs with
  | nil =>
    obtain ⟨rfl, rfl⟩ := Prod.mk.inj (Option.some.inj hrun)
    exact ⟨s, rfl, hs⟩
  | cons c cs ih =>
    obtain ⟨r, a₁, rs', hc, hcs, rfl⟩ := run_cons_eq_some hrun
    obtain ⟨s₁, hcall, hs₁⟩ := hstep s a c r a₁ hs hc
    obtain ⟨s₂, hcalls, hs₂⟩ := ih hs₁ hcs
    refine ⟨s₂, ?_, hs₂⟩
    rw [run, hcall, pure_bind, hcalls, pure_bind]

end CallRuns
