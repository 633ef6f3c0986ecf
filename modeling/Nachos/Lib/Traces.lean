import Mathlib.Tactic.Common

namespace Traces
variable {σ α ℓ : Type*}

variable {step : σ → ℓ → σ → Prop} {s₀ s : σ} {ls : List ℓ}

end Traces
