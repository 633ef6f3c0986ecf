import Mathlib.Tactic

namespace Patch

variable {α β ι : Type*}

def apply (p : α → Option β) (m : α → β) : α → β := fun a => (p a).getD (m a)

/-- The writes `p i`, for `i` in the list, one after the other. -/
def applyAll (p : ι → α → Option β) (is : List ι) (m : α → β) : α → β :=
  is.foldl (fun m i => apply (p i) m) m

theorem applyAll_cons (p : ι → α → Option β) (i : ι) (is : List ι) (m : α → β) :
    applyAll p (i :: is) m = applyAll p is (apply (p i) m) := rfl

theorem applyAll_of_none {p : ι → α → Option β} {is : List ι} {a : α}
    (h : ∀ i ∈ is, p i a = none) (m : α → β) : applyAll p is m a = m a := by
  induction is generalizing m with
  | nil => rfl
  | cons i is ih =>
    rw [applyAll_cons, ih fun j hj => h j (List.mem_cons_of_mem _ hj)]
    simp [apply, h i List.mem_cons_self]

theorem applyAll_of_unique {p : ι → α → Option β} {is : List ι} {a : α} {i : ι} {b : β}
    (hi : i ∈ is) (hb : p i a = some b) (huniq : ∀ j ∈ is, j ≠ i → p j a = none) (m : α → β) :
    applyAll p is m a = b := by
  induction is generalizing m with
  | nil => cases hi
  | cons j is ih =>
    rw [applyAll_cons]
    by_cases hin : i ∈ is
    · exact ih hin (fun k hk => huniq k (List.mem_cons_of_mem _ hk)) _
    · obtain rfl : i = j := by
        rcases List.mem_cons.mp hi with h | h
        · exact h
        · exact absurd h hin
      have hrest : ∀ k ∈ is, p k a = none := by
        intro k hk
        refine huniq k (List.mem_cons_of_mem _ hk) ?_
        rintro rfl
        exact hin hk
      rw [applyAll_of_none hrest]
      simp [apply, hb]

end Patch
