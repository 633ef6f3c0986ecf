import Mathlib.Tactic

namespace BitWords

variable {w : ℕ}

def word (ws : List (BitVec w)) (k : ℕ) : BitVec w := ws.getD k 0

def mask (w i : ℕ) : BitVec w := 1#w <<< (i % w)

def test (ws : List (BitVec w)) (i : ℕ) : Bool := (word ws (i / w) &&& mask w i) != 0#w

def mark (ws : List (BitVec w)) (i : ℕ) : List (BitVec w) :=
  ws.set (i / w) (word ws (i / w) ||| mask w i)

def clear (ws : List (BitVec w)) (i : ℕ) : List (BitVec w) :=
  ws.set (i / w) (word ws (i / w) &&& ~~~ (mask w i))

@[simp] theorem length_mark (ws : List (BitVec w)) (i : ℕ) : (mark ws i).length = ws.length := by
  simp [mark]

@[simp] theorem length_clear (ws : List (BitVec w)) (i : ℕ) :
    (clear ws i).length = ws.length := by
  simp [clear]

theorem getLsbD_mask (hw : 0 < w) (i k : ℕ) : (mask w i).getLsbD k = decide (k = i % w) := by
  have hi : i % w < w := Nat.mod_lt i hw
  rw [mask, ← BitVec.twoPow_eq, BitVec.getLsbD_twoPow]
  simp [hi, eq_comm]

/-- The mask test reads the stored bit. -/
theorem test_eq (hw : 0 < w) (ws : List (BitVec w)) (i : ℕ) :
    test ws i = (word ws (i / w)).getLsbD (i % w) := by
  have hne : BitVec.twoPow w (i % w) ≠ 0#w := by
    intro h
    have := congrArg (fun v => v.getLsbD (i % w)) h
    simp [Nat.mod_lt i hw] at this
  rw [test, mask, ← BitVec.twoPow_eq, BitVec.and_twoPow]
  cases hb : (word ws (i / w)).getLsbD (i % w) <;> simp [hne]

theorem word_set (ws : List (BitVec w)) {k l : ℕ} (v : BitVec w) (hk : k < ws.length) :
    word (ws.set k v) l = if k = l then v else word ws l := by
  by_cases h : k = l
  · subst h
    simp [word, hk]
  · simp [word, h]

/-- Two indices in one word are equal as soon as their offsets are. -/
theorem eq_of_div_mod {i j : ℕ} (hd : i / w = j / w) : j % w = i % w ↔ j = i := by
  constructor
  · intro hm
    rw [← Nat.div_add_mod j w, ← Nat.div_add_mod i w, hm, hd]
  · rintro rfl
    rfl

theorem test_mark (hw : 0 < w) {ws : List (BitVec w)} {i : ℕ} (hi : i / w < ws.length) (j : ℕ) :
    test (mark ws i) j = (decide (j = i) || test ws j) := by
  rw [test_eq hw, test_eq hw, mark, word_set _ _ hi]
  split_ifs with h
  · rw [BitVec.getLsbD_or, getLsbD_mask hw, Bool.or_comm, h, decide_eq_decide.mpr (eq_of_div_mod h)]
  · have hne : j ≠ i := fun he => h (by rw [he])
    simp [hne]

theorem test_clear (hw : 0 < w) {ws : List (BitVec w)} {i : ℕ} (hi : i / w < ws.length) (j : ℕ) :
    test (clear ws i) j = (!decide (j = i) && test ws j) := by
  rw [test_eq hw, test_eq hw, clear, word_set _ _ hi]
  split_ifs with h
  · have hj : j % w < w := Nat.mod_lt j hw
    rw [BitVec.getLsbD_and, BitVec.getLsbD_not, getLsbD_mask hw, h]
    simp [hj, Bool.and_comm, eq_of_div_mod h]
  · have hne : j ≠ i := fun he => h (by rw [he])
    simp [hne]

theorem test_replicate_zero (hw : 0 < w) (n i : ℕ) : test (List.replicate n 0#w) i = false := by
  rw [test_eq hw]
  by_cases h : i / w < n <;> simp [word, h]

end BitWords
