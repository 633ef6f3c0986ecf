import Mathlib.Tactic

namespace DoubleWord

variable {w : ℕ}

def value (p : BitVec w × BitVec w) : ℕ := p.1.toNat * 2 ^ w + p.2.toNat

/-- The low words are added first; their sum is below a summand where it carries. -/
def add (p q : BitVec w × BitVec w) : BitVec w × BitVec w :=
  let lo := p.2 + q.2
  ((if lo.toNat < q.2.toNat then p.1 + 1 else p.1) + q.1, lo)

def double (p : BitVec w × BitVec w) : BitVec w × BitVec w :=
  ((p.1 <<< 1) ||| (if p.2.msb then 1 else 0), p.2 <<< 1)

def neg (p : BitVec w × BitVec w) : BitVec w × BitVec w :=
  let lo := ~~~p.2 + 1
  (if lo = 0 then ~~~p.1 + 1 else ~~~p.1, lo)

variable {p q : BitVec w × BitVec w}

theorem high_lt {a b : ℕ} (h : a * 2 ^ w + b < 2 ^ w * 2 ^ w) : a < 2 ^ w :=
  Nat.lt_of_mul_lt_mul_right (lt_of_le_of_lt (Nat.le_add_right _ b) h)

theorem value_add (hw : 0 < w) (h : value p + value q < 2 ^ w * 2 ^ w) :
    value (add p q) = value p + value q := by
  obtain ⟨hi, lo⟩ := p
  obtain ⟨hi', lo'⟩ := q
  have hlo := lo.isLt
  have hlo' := lo'.isLt
  have hone : (1 : BitVec w).toNat = 1 := by
    simp [Nat.mod_eq_of_lt (Nat.one_lt_two_pow hw.ne')]
  simp only [value, add, BitVec.toNat_add] at h ⊢
  by_cases hcarry : lo.toNat + lo'.toNat < 2 ^ w
  · have hsum : hi.toNat + hi'.toNat < 2 ^ w := high_lt (b := lo.toNat + lo'.toNat) (by linarith)
    rw [Nat.mod_eq_of_lt hcarry, if_neg (by omega), Nat.mod_eq_of_lt hsum]
    ring
  · have hlow : (lo.toNat + lo'.toNat) % 2 ^ w = lo.toNat + lo'.toNat - 2 ^ w := by
      rw [Nat.mod_eq_sub_mod (by omega), Nat.mod_eq_of_lt (by omega)]
    obtain ⟨d, hd⟩ := Nat.exists_eq_add_of_le (not_lt.mp hcarry)
    have hsum : hi.toNat + hi'.toNat + 1 < 2 ^ w := high_lt (b := d) (by linarith)
    have hhigh : (hi.toNat + 1) % 2 ^ w = hi.toNat + 1 := Nat.mod_eq_of_lt (by omega)
    rw [hlow, if_pos (by omega), BitVec.toNat_add, hone, hhigh, Nat.mod_eq_of_lt (by omega), hd,
      Nat.add_sub_cancel_left]
    linarith

theorem value_double (hw : 0 < w) (h : 2 * value p < 2 ^ w * 2 ^ w) :
    value (double p) = 2 * value p := by
  obtain ⟨hi, lo⟩ := p
  have hlo := lo.isLt
  have hpow : 2 ^ w = 2 * 2 ^ (w - 1) := by
    rw [← Nat.pow_succ', Nat.succ_eq_add_one, Nat.sub_add_cancel hw]
  have hbit : ((if lo.msb then 1 else 0 : BitVec w)).toNat = if lo.msb then 1 else 0 := by
    split_ifs
    · simp [Nat.mod_eq_of_lt (Nat.one_lt_two_pow hw.ne')]
    · rfl
  have hmsb : lo.msb = true ↔ 2 ^ (w - 1) ≤ lo.toNat := by
    rw [BitVec.msb_eq_decide, decide_eq_true_eq]
  simp only [value] at h
  have hhi : 2 * hi.toNat < 2 ^ w := high_lt (b := 2 * lo.toNat) (by linarith)
  -- the lowest bit of the shifted high word is free for the carry
  have hor : hi.toNat <<< 1 % 2 ^ w ||| (if lo.msb = true then 1 else 0) =
      2 * hi.toNat + if lo.msb = true then 1 else 0 := by
    have hshift : hi.toNat <<< 1 = 2 * hi.toNat := by
      rw [Nat.shiftLeft_eq, pow_one, Nat.mul_comm]
    rw [Nat.mod_eq_of_lt (hshift ▸ hhi), ← hshift, Nat.shiftLeft_add_eq_or_of_lt]
    split_ifs <;> decide
  simp only [value, double, BitVec.toNat_or, BitVec.toNat_shiftLeft, hbit, hor]
  rw [Nat.shiftLeft_eq, pow_one]
  split_ifs with hm
  · have hlow : lo.toNat * 2 % 2 ^ w = lo.toNat * 2 - 2 ^ w := by
      have := hmsb.mp hm
      rw [Nat.mod_eq_sub_mod (by omega), Nat.mod_eq_of_lt (by omega)]
    obtain ⟨d, hd⟩ := Nat.exists_eq_add_of_le (show 2 ^ w ≤ lo.toNat * 2 by
      have := hmsb.mp hm
      omega)
    rw [hlow, hd, Nat.add_sub_cancel_left]
    linarith
  · have hlow : lo.toNat * 2 < 2 ^ w := by
      rw [hmsb] at hm
      omega
    rw [Nat.mod_eq_of_lt hlow]
    ring

/-- A number and its complement fill the double word. -/
theorem value_neg (h : value p ≠ 0) : value (neg p) + value p = 2 ^ w * 2 ^ w := by
  obtain ⟨hi, lo⟩ := p
  have hlo := lo.isLt
  have hhi := hi.isLt
  have hneg : ∀ x : BitVec w, x.toNat ≠ 0 → (~~~x + 1).toNat = 2 ^ w - x.toNat := by
    intro x hx
    have hlt := x.isLt
    change (~~~x + 1#w).toNat = _
    rw [← BitVec.neg_eq_not_add, BitVec.toNat_neg, Nat.mod_eq_of_lt (by omega)]
  simp only [value, neg] at h ⊢
  by_cases hzero : lo.toNat = 0
  · -- the carry runs into the high word
    obtain rfl : lo = 0#w := BitVec.eq_of_toNat_eq (by simpa using hzero)
    have hcarry : ~~~0#w + 1 = (0 : BitVec w) := by
      change ~~~0#w + 1#w = 0#w
      rw [← BitVec.neg_eq_not_add, BitVec.neg_zero]
    have hne : hi.toNat ≠ 0 := by
      intro h0
      simp [h0] at h
    obtain ⟨d, hd⟩ := Nat.exists_eq_add_of_le hhi.le
    rw [hcarry, if_pos rfl, hneg hi hne, hd]
    simp
    ring
  · have hne : ~~~lo + 1 ≠ 0 := by
      intro h0
      have := hneg lo hzero
      rw [h0] at this
      simp at this
      omega
    rw [if_neg hne, hneg lo hzero, BitVec.toNat_not]
    obtain ⟨d, hd⟩ := Nat.exists_eq_add_of_lt hhi
    obtain ⟨e, he⟩ := Nat.exists_eq_add_of_le hlo.le
    rw [show 2 ^ w - 1 - hi.toNat = d by omega, show 2 ^ w - lo.toNat = e by omega]
    calc d * 2 ^ w + e + (hi.toNat * 2 ^ w + lo.toNat)
        = (d + hi.toNat) * 2 ^ w + (lo.toNat + e) := by ring
      _ = (d + hi.toNat + 1) * 2 ^ w := by rw [← he]; ring
      _ = 2 ^ w * 2 ^ w := by rw [show d + hi.toNat + 1 = 2 ^ w by omega]

end DoubleWord
