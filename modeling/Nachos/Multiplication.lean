import Nachos.Lib.DoubleWord
import Nachos.Mips

namespace Nachos
open TwosComplement DoubleWord

theorem toNat_append_eq_value (p : BitVec 32 × BitVec 32) : (p.1 ++ p.2).toNat = value p := by
  rw [BitVec.toNat_append, ← Nat.shiftLeft_add_eq_or_of_lt p.2.isLt, Nat.shiftLeft_eq, value]

theorem sshiftRight_one_mod (a : BitVec 32) {n : ℕ} (hn : n < 32) :
    (a.sshiftRight 1).toNat % 2 ^ n = a.toNat / 2 % 2 ^ n := by
  apply Nat.eq_of_testBit_eq
  intro i
  rw [Nat.testBit_mod_two_pow, Nat.testBit_mod_two_pow, Nat.testBit_div_two]
  by_cases hi : i < n
  · have hbit : (a.sshiftRight 1).getLsbD i = a.getLsbD (i + 1) := by
      rw [BitVec.getLsbD_sshiftRight, if_pos (by omega), Nat.add_comm]
      simp
      omega
    simp only [hi, decide_true, Bool.true_and]
    exact hbit
  · simp [hi]

theorem mod_two_pow_succ (a n : ℕ) : a % 2 ^ (n + 1) = a % 2 + 2 * (a / 2 % 2 ^ n) := by
  rw [Nat.pow_succ', Nat.mod_mul]

/-- One round in terms of double words. -/
theorem multLoop_succ (n : ℕ) (a : BitVec 32) (b s : BitVec 32 × BitVec 32) :
    multLoop (n + 1) a b.2 b.1 s.2 s.1 =
      if a.getLsbD 0 then
        if a &&& 0xfffffffe = 0 then add s b
        else multLoop n (a.sshiftRight 1) (double b).2 (double b).1 (add s b).2 (add s b).1
      else multLoop n (a.sshiftRight 1) (double b).2 (double b).1 s.2 s.1 := rfl

theorem eq_one_of_rest {a : BitVec 32} (hbit : a.getLsbD 0 = true) (h : a &&& 0xfffffffe = 0) :
    a.toNat = 1 := by
  have hone : a = 1#32 := by
    apply BitVec.eq_of_getLsbD_eq
    intro i hi
    have hrest := congrArg (fun x => x.getLsbD i) h
    simp only [BitVec.getLsbD_and] at hrest
    interval_cases i <;> simp_all
  rw [hone]
  rfl

/-- What the loop adds to the sum, as long as everything fits. -/
theorem value_multLoop {n : ℕ} (hn : n ≤ 32) (a : BitVec 32) (b s : BitVec 32 × BitVec 32)
    (hb : value b * 2 ^ n < 2 ^ 32 * 2 ^ 32)
    (hs : value s + a.toNat % 2 ^ n * value b < 2 ^ 32 * 2 ^ 32) :
    value (multLoop n a b.2 b.1 s.2 s.1) = value s + a.toNat % 2 ^ n * value b := by
  induction n generalizing a b s with
  | zero =>
    rw [multLoop, Nat.pow_zero, Nat.mod_one, Nat.zero_mul, Nat.add_zero]
  | succ n ih =>
    have hdouble : value (double b) = 2 * value b := by
      apply value_double (by decide)
      have hpow : 1 ≤ 2 ^ n := Nat.one_le_two_pow
      calc 2 * value b ≤ 2 * value b * 2 ^ n := Nat.le_mul_of_pos_right _ hpow
        _ = value b * 2 ^ (n + 1) := by rw [Nat.pow_succ]; ring
        _ < 2 ^ 32 * 2 ^ 32 := hb
    have hb' : value (double b) * 2 ^ n < 2 ^ 32 * 2 ^ 32 := by
      rw [hdouble]
      calc 2 * value b * 2 ^ n = value b * 2 ^ (n + 1) := by rw [Nat.pow_succ]; ring
        _ < 2 ^ 32 * 2 ^ 32 := hb
    have hshift := sshiftRight_one_mod a (show n < 32 by omega)
    have hbits := mod_two_pow_succ a.toNat n
    have hbit : a.getLsbD 0 = decide (a.toNat % 2 = 1) := by
      rw [BitVec.getLsbD, Nat.testBit_zero]
    -- the bits that are left, times the doubled factor
    have hrest : (a.sshiftRight 1).toNat % 2 ^ n * value (double b) =
        2 * (a.toNat / 2 % 2 ^ n) * value b := by
      rw [hshift, hdouble]
      ring
    rw [hbits, Nat.add_mul] at hs ⊢
    rw [multLoop_succ]
    by_cases hodd : a.getLsbD 0 = true
    · have hone : a.toNat % 2 = 1 := by
        rw [hbit] at hodd
        exact of_decide_eq_true hodd
      rw [hone, Nat.one_mul] at hs ⊢
      have hsum : value (add s b) = value s + value b := value_add (by decide) (by omega)
      rw [if_pos hodd]
      split_ifs with hlast
      · rw [hsum, eq_one_of_rest hodd hlast]
        simp
      · rw [ih (by omega) _ _ _ hb' (by rw [hrest, hsum]; omega), hrest, hsum]
        omega
    · have hzero : a.toNat % 2 = 0 := by
        rw [hbit, decide_eq_true_eq] at hodd
        omega
      rw [hzero, Nat.zero_mul, Nat.zero_add] at hs ⊢
      rw [if_neg hodd, ih (by omega) _ _ _ hb' (by rw [hrest]; exact hs), hrest]

theorem value_multLoop_start (a b : BitVec 32) :
    value (multLoop 32 a b 0 0 0) = a.toNat * b.toNat := by
  have ha := a.isLt
  have hb := b.isLt
  have hstart : value ((0 : BitVec 32), b) = b.toNat := by simp [value]
  have hzero : value ((0 : BitVec 32), (0 : BitVec 32)) = 0 := rfl
  have hprod : a.toNat * b.toNat < 2 ^ 32 * 2 ^ 32 := Nat.mul_lt_mul'' ha hb
  have h := value_multLoop le_rfl a ((0 : BitVec 32), b) ((0 : BitVec 32), (0 : BitVec 32))
    (by rw [hstart]; omega) (by rw [hzero, hstart, Nat.mod_eq_of_lt ha]; omega)
  rw [hzero, hstart, Nat.mod_eq_of_lt ha, Nat.zero_add] at h
  exact h

/-- The bits of the factor that goes into the loop. -/
def magnitude (signedArith : Bool) (x : Int) : BitVec 32 :=
  if signedArith && x < 0 then word (-x) else word x

theorem mult_eq {a b : Int} (ha : a ≠ 0) (hb : b ≠ 0) (signedArith : Bool) :
    mult a b signedArith =
      let p := multLoop 32 (magnitude signedArith a) (magnitude signedArith b) 0 0 0
      let q := if signedArith && (decide (a < 0) != decide (b < 0)) then neg p else p
      (q.1.toInt, q.2.toInt) := by
  rw [mult, if_neg (not_or.mpr ⟨ha, hb⟩)]
  cases signedArith <;> cases decide (a < 0) <;> cases decide (b < 0) <;> rfl

theorem toNat_magnitude (x : BitVec 32) : ((magnitude true x.toInt).toNat : Int) = |x.toInt| := by
  have hlow := x.le_toInt
  have hhigh := x.toInt_lt
  unfold magnitude
  split_ifs with h
  · have hneg : x.toInt < 0 := by simpa using h
    rw [toNat_word, unsigned, abs_of_neg hneg]
    omega
  · have hpos : 0 ≤ x.toInt := by simpa using h
    rw [toNat_word, unsigned, abs_of_nonneg hpos]
    omega

theorem toInt_append_of_value {p : BitVec 32 × BitVec 32} {v : Int}
    (hlow : -2 ^ 63 ≤ v) (hhigh : v < 2 ^ 63)
    (h : (value p : Int) = v ∨ (value p : Int) = v + 2 ^ 64) (hv : value p < 2 ^ 64) :
    (p.1 ++ p.2).toInt = v := by
  rw [BitVec.toInt_eq_toNat_cond, toNat_append_eq_value]
  split_ifs <;> omega

theorem mul_eq_abs (a b : Int) :
    a * b = if decide (a < 0) != decide (b < 0) then -(|a| * |b|) else |a| * |b| := by
  rcases lt_or_ge a 0 with ha | ha <;> rcases lt_or_ge b 0 with hb | hb
  · simp [ha, hb, abs_of_neg]
  · simp [ha, hb, abs_of_neg, abs_of_nonneg, not_lt.mpr hb]
  · simp [ha, hb, abs_of_neg, abs_of_nonneg, not_lt.mpr ha]
  · simp [ha, hb, abs_of_nonneg, not_lt.mpr ha, not_lt.mpr hb]

theorem mult_signed {a b : BitVec 32} (ha : a.toInt ≠ 0) (hb : b.toInt ≠ 0) :
    (word (mult a.toInt b.toInt true).1 ++ word (mult a.toInt b.toInt true).2).toInt =
      a.toInt * b.toInt := by
  have hloop := value_multLoop_start (magnitude true a.toInt) (magnitude true b.toInt)
  rw [mult_eq ha hb]
  simp only [word_toInt, Bool.true_and]
  generalize multLoop 32 (magnitude true a.toInt) (magnitude true b.toInt) 0 0 0 = p at hloop ⊢
  have habs : (value p : Int) = |a.toInt| * |b.toInt| := by
    rw [hloop, Nat.cast_mul, toNat_magnitude, toNat_magnitude]
  have hbound : |a.toInt| * |b.toInt| ≤ 2 ^ 31 * 2 ^ 31 := by
    have h₁ := a.le_toInt
    have h₂ := a.toInt_lt
    have h₃ := b.le_toInt
    have h₄ := b.toInt_lt
    have h₅ : |a.toInt| ≤ 2 ^ 31 := abs_le.mpr ⟨by omega, by omega⟩
    have h₆ : |b.toInt| ≤ 2 ^ 31 := abs_le.mpr ⟨by omega, by omega⟩
    exact mul_le_mul h₅ h₆ (abs_nonneg _) (by norm_num)
  have hpos : 0 < |a.toInt| * |b.toInt| := mul_pos (abs_pos.mpr ha) (abs_pos.mpr hb)
  rw [mul_eq_abs]
  split_ifs
  · have hneg : value (neg p) + value p = 2 ^ 32 * 2 ^ 32 := value_neg (by omega)
    apply toInt_append_of_value <;> omega
  · apply toInt_append_of_value <;> omega

theorem mult_unsigned {a b : BitVec 32} (ha : a.toInt ≠ 0) (hb : b.toInt ≠ 0) :
    (word (mult a.toInt b.toInt false).1 ++ word (mult a.toInt b.toInt false).2).toNat =
      a.toNat * b.toNat := by
  rw [mult_eq ha hb]
  simp only [word_toInt, Bool.false_and, Bool.false_eq_true, if_false]
  rw [toNat_append_eq_value, magnitude, magnitude]
  simp only [Bool.false_and, Bool.false_eq_true, if_false, word_toInt]
  exact value_multLoop_start a b

theorem mult_zero {a b : Int} (h : a = 0 ∨ b = 0) (signedArith : Bool) :
    mult a b signedArith = (0, 0) := if_pos h

/-- `Mult` leaves the 64-bit product, of the signed or of the unsigned values. -/
theorem mult_is_product (a b : BitVec 32) :
    (word (mult a.toInt b.toInt true).1 ++ word (mult a.toInt b.toInt true).2).toInt =
        a.toInt * b.toInt ∧
      (word (mult a.toInt b.toInt false).1 ++ word (mult a.toInt b.toInt false).2).toNat =
        a.toNat * b.toNat := by
  by_cases h : a.toInt = 0 ∨ b.toInt = 0
  · rw [mult_zero h, mult_zero h]
    have hzero : a.toInt * b.toInt = 0 := mul_eq_zero.mpr h
    have hzero' : a.toNat * b.toNat = 0 := by
      rcases h with h | h
      · rw [← word_toInt a, h]
        exact Nat.zero_mul _
      · rw [← word_toInt b, h]
        exact Nat.mul_zero _
    rw [hzero, hzero']
    decide
  · rw [not_or] at h
    exact ⟨mult_signed h.1 h.2, mult_unsigned h.1 h.2⟩

end Nachos
