import Mathlib.Tactic.Common

namespace Programs
variable {σ ε α β γ : Type}

theorem except_bind_ok {x : Except ε α} {f : α → Except ε β} {b : β} (h : (x >>= f) = .ok b) :
    ∃ a, x = .ok a ∧ f a = .ok b := by
  cases x with
  | error e => cases h
  | ok a => exact ⟨a, rfl, h⟩

theorem except_ok_bind (a : α) (f : α → Except ε β) : ((.ok a : Except ε α) >>= f) = f a := rfl

theorem eq_ok_of_toOption {x : Except ε α} {a : α} (h : x.toOption = some a) : x = .ok a := by
  cases x with
  | error e => cases h
  | ok b =>
    cases h
    rfl

theorem bind_of_ok {f : StateT σ (Except ε) α} {g : α → StateT σ (Except ε) β} {s s' : σ} {a : α}
    (h : f s = .ok (a, s')) : (f >>= g) s = g a s' := by
  change (f s >>= fun p => g p.1 p.2) = _
  rw [h]
  rfl

theorem bind_of_error {f : StateT σ (Except ε) α} {g : α → StateT σ (Except ε) β} {s : σ} {e : ε}
    (h : f s = .error e) : (f >>= g) s = .error e := by
  change (f s >>= fun p => g p.1 p.2) = _
  rw [h]
  rfl

theorem bind_of_eq {f f' : StateT σ (Except ε) α} {g : α → StateT σ (Except ε) β} {s s' : σ}
    (h : f s = f' s') : (f >>= g) s = (f' >>= g) s' := by
  change (f s >>= fun p => g p.1 p.2) = _
  rw [h]
  rfl

theorem bind_ok {f : StateT σ (Except ε) α} {g : α → StateT σ (Except ε) β} {s s'' : σ} {b : β}
    (h : (f >>= g) s = .ok (b, s'')) : ∃ a s', f s = .ok (a, s') ∧ g a s' = .ok (b, s'') := by
  cases hf : f s with
  | error e => cases (bind_of_error hf).symm.trans h
  | ok p => exact ⟨p.1, p.2, rfl, (bind_of_ok hf).symm.trans h⟩

theorem lift_ok {x : Except ε α} {a : α} {s s' : σ}
    (h : (liftM x : StateT σ (Except ε) α) s = .ok (a, s')) : x = .ok a ∧ s = s' := by
  cases x with
  | error e => cases h
  | ok b =>
    cases h
    exact ⟨rfl, rfl⟩

theorem ite_ok {c : Prop} [Decidable c] {f g : StateT σ (Except ε) α} {s : σ} {r : α × σ}
    (h : (if c then f else g) s = .ok r) : (c ∧ f s = .ok r) ∨ (¬c ∧ g s = .ok r) := by
  split at h
  · next hc => exact .inl ⟨hc, h⟩
  · next hc => exact .inr ⟨hc, h⟩

/-- Every return of `f` leaves the states before and after in the relation `R`. -/
def Does (f : StateT σ (Except ε) α) (R : σ → σ → Prop) : Prop :=
  ∀ s a s', f s = .ok (a, s') → R s s'

def Keeps (obs : σ → γ) (f : StateT σ (Except ε) α) : Prop := Does f fun s s' => obs s' = obs s

variable {obs : σ → γ} {R : σ → σ → Prop}

theorem keeps_pure (a : α) : Keeps obs (pure a : StateT σ (Except ε) α) := by
  intro s b s' h
  cases h
  rfl

theorem does_throw (e : ε) : Does (throw e : StateT σ (Except ε) α) R := by
  intro s a s' h
  cases h

theorem keeps_get : Keeps obs (get : StateT σ (Except ε) σ) := by
  intro s b s' h
  cases h
  rfl

theorem keeps_modify {f : σ → σ} (h : ∀ s, obs (f s) = obs s) :
    Keeps obs (modify f : StateT σ (Except ε) PUnit) := by
  intro s b s' hs
  cases hs
  exact h s

theorem keeps_lift (x : Except ε α) : Keeps obs (liftM x : StateT σ (Except ε) α) := by
  intro s b s' h
  obtain ⟨-, rfl⟩ := lift_ok h
  rfl

/-- What follows a program that keeps an observation, on which the relation depends in its
first argument only. -/
theorem does_bind {f : StateT σ (Except ε) α} {g : α → StateT σ (Except ε) β}
    {T : γ → σ → Prop} (hf : Keeps obs f) (hg : ∀ a, Does (g a) fun s s' => T (obs s) s') :
    Does (f >>= g) fun s s' => T (obs s) s' := by
  intro s b s'' h
  obtain ⟨a, s', hs', hs''⟩ := bind_ok h
  have hT : T (obs s') s'' := hg a s' b s'' hs''
  rw [hf s a s' hs'] at hT
  exact hT

theorem keeps_bind {f : StateT σ (Except ε) α} {g : α → StateT σ (Except ε) β}
    (hf : Keeps obs f) (hg : ∀ a, Keeps obs (g a)) : Keeps obs (f >>= g) :=
  does_bind (T := fun c s' => obs s' = c) hf hg

/-- What a program keeps, it keeps of every function of it. -/
theorem Keeps.comp {δ : Type} {f : StateT σ (Except ε) α} (h : Keeps obs f) (g : γ → δ) :
    Keeps (fun s => g (obs s)) f := by
  intro s a s' hs
  exact congrArg g (h s a s' hs)

theorem does_ite {c : Prop} [Decidable c] {f g : StateT σ (Except ε) α} (hf : c → Does f R)
    (hg : ¬c → Does g R) : Does (if c then f else g) R := by
  split
  · next h => exact hf h
  · next h => exact hg h

/-- An outcome that, if it is a stop, is one of `Q`. -/
def StopsOnly (Q : ε → Prop) (r : Except ε α) : Prop := ∀ e, r = .error e → Q e

variable {Q : ε → Prop}

theorem stopsOnly_ok (a : α) : StopsOnly Q (.ok a : Except ε α) := nofun

theorem stopsOnly_bind {f : StateT σ (Except ε) α} {g : α → StateT σ (Except ε) β} {s : σ}
    (hf : StopsOnly Q (f s)) (hg : ∀ a s', f s = .ok (a, s') → StopsOnly Q (g a s')) :
    StopsOnly Q ((f >>= g) s) := by
  cases hs : f s with
  | error e =>
    rw [bind_of_error hs]
    intro e' he
    cases he
    exact hf e hs
  | ok p =>
    rw [bind_of_ok hs]
    exact hg p.1 p.2 hs

theorem stopsOnly_ite {c : Prop} [Decidable c] {f g : StateT σ (Except ε) α} {s : σ}
    (hf : c → StopsOnly Q (f s)) (hg : ¬c → StopsOnly Q (g s)) :
    StopsOnly Q ((if c then f else g) s) := by
  split
  · next h => exact hf h
  · next h => exact hg h

end Programs
