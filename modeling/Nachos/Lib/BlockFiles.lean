import Mathlib.Tactic

namespace BlockFiles

variable {β : Type*} {size : ℕ} {store store' : ℕ → ℕ → β} {block : ℕ → ℕ}

/-- Byte `k` of the file that has its blocks, of `size` bytes each, at the given numbers. -/
def content (size : ℕ) (store : ℕ → ℕ → β) (block : ℕ → ℕ) (k : ℕ) : β :=
  store (block (k / size)) (k % size)

theorem content_congr {block' : ℕ → ℕ} {k : ℕ} (hblock : block (k / size) = block' (k / size))
    (hstore : store (block' (k / size)) = store' (block' (k / size))) :
    content size store block k = content size store' block' k := by
  rw [content, content, hblock, hstore]

/-- The blocks `first`, …, `first + n - 1` of the file are written from a buffer. -/
theorem content_write (first n : ℕ) (buf : ℕ → β) {k : ℕ}
    (hin : ∀ q, first ≤ q → q < first + n → ∀ j < size,
      store' (block q) j = buf ((q - first) * size + j))
    (hout : ∀ q, q = k / size → ¬(first ≤ q ∧ q < first + n) →
      store' (block q) = store (block q)) (hsize : 0 < size) :
    content size store' block k =
      if first * size ≤ k ∧ k < (first + n) * size then buf (k - first * size)
      else content size store block k := by
  have hfirst : first ≤ k / size ↔ first * size ≤ k := Nat.le_div_iff_mul_le hsize
  have hlast : k / size < first + n ↔ k < (first + n) * size := Nat.div_lt_iff_lt_mul hsize
  unfold content
  split_ifs with h
  · rw [← hfirst, ← hlast] at h
    rw [hin _ h.1 h.2 _ (Nat.mod_lt k hsize)]
    congr 1
    have hdiv := Nat.div_add_mod' k size
    have hle : first * size ≤ k / size * size := Nat.mul_le_mul_right _ h.1
    rw [Nat.sub_mul]
    omega
  · rw [← hfirst, ← hlast] at h
    rw [hout _ rfl h]

end BlockFiles
