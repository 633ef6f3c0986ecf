import Mathlib.Tactic

namespace ByteMerge
variable {w : ℕ}

def byte (x : BitVec w) (j : ℕ) : BitVec 8 := (x >>> (8 * j)).setWidth 8

/-- The `n` lowest bytes. -/
def mask (w n : ℕ) : BitVec w := BitVec.ofNat w (2 ^ (8 * n) - 1)

def above (n : ℕ) (x y : BitVec w) : BitVec w := (x &&& mask w n) ||| (y <<< (8 * n))

def below (n s : ℕ) (x y : BitVec w) : BitVec w :=
  (x &&& ~~~mask w n) ||| (y.sshiftRight (8 * s) &&& mask w n)

theorem getLsbD_byte (x : BitVec w) (j i : ℕ) :
    (byte x j).getLsbD i = (decide (i < 8) && x.getLsbD (8 * j + i)) := by
  rw [byte, BitVec.getLsbD_setWidth, BitVec.getLsbD_ushiftRight]

theorem getLsbD_mask (w n i : ℕ) :
    (mask w n).getLsbD i = (decide (i < w) && decide (i < 8 * n)) := by
  rw [mask, BitVec.getLsbD_ofNat, Nat.testBit_two_pow_sub_one]

/-- Bytes are equal when their bits are, at their places in the words. -/
theorem byte_eq {x y : BitVec w} {j k : ℕ}
    (h : ∀ i < 8, x.getLsbD (8 * j + i) = y.getLsbD (8 * k + i)) : byte x j = byte y k := by
  apply BitVec.eq_of_getLsbD_eq
  intro i hi
  rw [getLsbD_byte, getLsbD_byte, h i hi]

theorem getLsbD_above {i : ℕ} (hi : i < w) (n : ℕ) (x y : BitVec w) :
    (above n x y).getLsbD i = if i < 8 * n then x.getLsbD i else y.getLsbD (i - 8 * n) := by
  rw [above, BitVec.getLsbD_or, BitVec.getLsbD_and, getLsbD_mask, BitVec.getLsbD_shiftLeft,
    decide_eq_true hi]
  by_cases h : i < 8 * n
  · simp only [h, decide_true, Bool.and_true, Bool.not_true, Bool.and_false, Bool.false_and,
      Bool.or_false, if_true]
  · simp only [h, decide_false, Bool.and_false, Bool.not_false, Bool.and_true, Bool.true_and,
      Bool.false_or, if_false]

theorem getLsbD_below {i s : ℕ} (hi : i < w) {n : ℕ} (hn : 8 * (n + s) ≤ w) (x y : BitVec w) :
    (below n s x y).getLsbD i = if i < 8 * n then y.getLsbD (8 * s + i) else x.getLsbD i := by
  rw [below, BitVec.getLsbD_or, BitVec.getLsbD_and, BitVec.getLsbD_not, BitVec.getLsbD_and,
    getLsbD_mask, BitVec.getLsbD_sshiftRight, decide_eq_true hi, decide_eq_false (not_le.mpr hi)]
  by_cases h : i < 8 * n
  · have hshift : 8 * s + i < w := by omega
    simp only [h, hshift, decide_true, Bool.and_true, Bool.not_true, Bool.and_false, Bool.not_false,
      Bool.true_and, Bool.false_or, if_true]
  · simp only [h, decide_false, Bool.and_false, Bool.not_false, Bool.and_true, Bool.or_false,
      if_false]

theorem byte_above {j : ℕ} (hj : 8 * (j + 1) ≤ w) (n : ℕ) (x y : BitVec w) :
    byte (above n x y) j = if j < n then byte x j else byte y (j - n) := by
  split_ifs with h
  · apply byte_eq
    intro i hi
    rw [getLsbD_above (by omega), if_pos (by omega)]
  · apply byte_eq
    intro i hi
    rw [getLsbD_above (by omega), if_neg (by omega),
      show 8 * j + i - 8 * n = 8 * (j - n) + i by omega]

theorem byte_below {j n s : ℕ} (hj : 8 * (j + 1) ≤ w) (hn : 8 * (n + s) ≤ w) (x y : BitVec w) :
    byte (below n s x y) j = if j < n then byte y (j + s) else byte x j := by
  split_ifs with h
  · apply byte_eq
    intro i hi
    rw [getLsbD_below (by omega) hn, if_pos (by omega),
      show 8 * s + (8 * j + i) = 8 * (j + s) + i by omega]
  · apply byte_eq
    intro i hi
    rw [getLsbD_below (by omega) hn, if_neg (by omega)]

end ByteMerge
