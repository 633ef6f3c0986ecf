import Mathlib.Tactic

namespace Buffers

abbrev Bytes := ℕ → UInt8

/-- The first `n` bytes of `src` replace those of `dst` from `offset` on. -/
def bcopy (src dst : Bytes) (offset n : ℕ) : Bytes := fun i =>
  if offset ≤ i ∧ i < offset + n then src (i - offset) else dst i

def shift (b : Bytes) (k : ℕ) : Bytes := fun i => b (k + i)

def byteOf (x : BitVec 32) (k : ℕ) : UInt8 := UInt8.ofNat (x.toNat / 256 ^ k)

def wordAt (b : Bytes) (i : ℕ) : BitVec 32 :=
  BitVec.ofNat 32 ((b i).toNat + 256 * (b (i + 1)).toNat + 65536 * (b (i + 2)).toNat +
    16777216 * (b (i + 3)).toNat)

/-- The number that the first `n` bytes spell. -/
def littleEndian (b : Bytes) (n : ℕ) : ℕ := ∑ i ∈ Finset.range n, (b i).toNat * 256 ^ i

/-- The string at the start of a buffer, of which at most `n` bytes are looked at. -/
def cString (b : Bytes) (n : ℕ) : List UInt8 := ((List.range n).map b).takeWhile (· ≠ 0)

/-- A byte has a NUL somewhere before it. -/
def BehindNul (b : Bytes) (j : ℕ) : Prop := ∃ i < j, b i = 0

instance (b : Bytes) (j : ℕ) : Decidable (BehindNul b j) := inferInstanceAs (Decidable (∃ _, _))

/-- At most `n` bytes of `src`, up to and with the first NUL, replace those of `dst` from `offset`
on. -/
def copyString (src dst : Bytes) (offset n : ℕ) : Bytes := fun i =>
  if offset ≤ i ∧ i < offset + n ∧ ¬BehindNul src (i - offset) then src (i - offset) else dst i

def wordBytes (ws : List (BitVec 32)) : Bytes := fun i => byteOf (ws.getD (i / 4) 0) (i % 4)

theorem bcopy_inside {src dst : Bytes} {offset n i : ℕ} (h : i < n) :
    bcopy src dst offset n (offset + i) = src i := by
  unfold bcopy
  rw [if_pos ⟨Nat.le_add_right .., by omega⟩, Nat.add_sub_cancel_left]

theorem bcopy_outside {src dst : Bytes} {offset n i : ℕ} (h : i < offset ∨ offset + n ≤ i) :
    bcopy src dst offset n i = dst i := if_neg (by omega)

theorem bcopy_start {src dst : Bytes} {n i : ℕ} (h : i < n) : bcopy src dst 0 n i = src i := by
  simpa using @bcopy_inside src dst 0 n i h

theorem wordAt_of_bytes {b : Bytes} {i : ℕ} {x : BitVec 32}
    (h : ∀ k < 4, b (i + k) = byteOf x k) : wordAt b i = x := by
  have h0 : b i = byteOf x 0 := h 0 (by omega)
  have hx : x.toNat < 4294967296 := x.isLt
  apply BitVec.eq_of_toNat_eq
  rw [wordAt, h0, h 1 (by omega), h 2 (by omega), h 3 (by omega)]
  simp only [byteOf, UInt8.toNat_ofNat', BitVec.toNat_ofNat]
  norm_num
  omega

theorem wordAt_congr {b b' : Bytes} {i j : ℕ} (h : ∀ k < 4, b (i + k) = b' (j + k)) :
    wordAt b i = wordAt b' j := by
  have h0 : b i = b' j := h 0 (by omega)
  rw [wordAt, wordAt, h0, h 1 (by omega), h 2 (by omega), h 3 (by omega)]

theorem wordAt_wordBytes {b : Bytes} {ws : List (BitVec 32)} {n j : ℕ}
    (h : ∀ i < n, b i = wordBytes ws i) (hj : 4 * j + 4 ≤ n) : wordAt b (4 * j) = ws.getD j 0 := by
  apply wordAt_of_bytes
  intro k hk
  rw [h _ (by omega), wordBytes, show (4 * j + k) / 4 = j by omega,
    show (4 * j + k) % 4 = k by omega]

theorem wordAt_three {b : Bytes} {x y z : BitVec 32} (h : ∀ i < 12, b i = wordBytes [x, y, z] i) :
    wordAt b 0 = x ∧ wordAt b 4 = y ∧ wordAt b 8 = z :=
  ⟨wordAt_wordBytes (j := 0) h (by decide), wordAt_wordBytes (j := 1) h (by decide),
    wordAt_wordBytes (j := 2) h (by decide)⟩

theorem cString_succ (b : Bytes) (n : ℕ) :
    cString b (n + 1) = if b 0 = 0 then [] else b 0 :: cString (shift b 1) n := by
  have hshift : (fun i => b (i + 1)) = shift b 1 := by
    funext i
    rw [shift, add_comm]
  have hmap : (List.range (n + 1)).map b = b 0 :: (List.range n).map (shift b 1) := by
    rw [List.range_succ_eq_map, List.map_cons, List.map_map, ← hshift]
    rfl
  rw [cString, hmap, List.takeWhile_cons]
  by_cases h0 : b 0 = 0
  · simp [h0]
  · simp [h0, cString]

theorem cString_congr {b b' : Bytes} {n : ℕ} (h : ∀ j < n, b j = b' j) :
    cString b n = cString b' n := by
  have hmap : (List.range n).map b = (List.range n).map b' :=
    List.map_congr_left fun j hj => h j (List.mem_range.mp hj)
  rw [cString, hmap, ← cString]

/-- The string comes back from a copy of it that is filled up with NULs. -/
theorem cString_of_getD {a b : Bytes} {n : ℕ} (h : ∀ j < n, b j = (cString a n).getD j 0) :
    cString b n = cString a n := by
  induction n generalizing a b with
  | zero => rfl
  | succ n ih =>
    have hb := h 0 (by omega)
    simp only [cString_succ] at h hb ⊢
    by_cases h0 : a 0 = 0
    · rw [if_pos h0] at hb ⊢
      exact if_pos hb
    · rw [if_neg h0] at hb ⊢
      rw [List.getD_cons_zero] at hb
      rw [hb, if_neg h0, ih fun j hj => ?_]
      rw [shift, add_comm, h (j + 1) (by omega), if_neg h0, List.getD_cons_succ]

theorem behindNul_succ (b : Bytes) (j : ℕ) :
    BehindNul b (j + 1) ↔ b 0 = 0 ∨ BehindNul (shift b 1) j := by
  constructor
  · rintro ⟨i, hi, hb⟩
    cases i with
    | zero => exact .inl hb
    | succ i =>
      refine .inr ⟨i, by omega, ?_⟩
      rw [shift, add_comm]
      exact hb
  · rintro (h0 | ⟨i, hi, hb⟩)
    · exact ⟨0, by omega, h0⟩
    · exact ⟨1 + i, by omega, hb⟩

/-- A copy of the string, filled up with NULs, has the bytes of the buffer up to the first NUL. -/
theorem getD_cString {b : Bytes} {n j : ℕ} (hj : j < n) :
    (cString b n).getD j 0 = if BehindNul b j then 0 else b j := by
  induction n generalizing b j with
  | zero => omega
  | succ n ih =>
    rw [cString_succ]
    cases j with
    | zero =>
      have hnot : ¬BehindNul b 0 := by
        rintro ⟨i, hi, -⟩
        omega
      rw [if_neg hnot]
      split_ifs with h0
      · exact h0.symm
      · rfl
    | succ j =>
      simp only [behindNul_succ]
      by_cases h0 : b 0 = 0
      · simp [h0]
      · simp only [h0, if_false, false_or, List.getD_cons_succ]
        rw [ih (by omega), shift, add_comm]

theorem not_behindNul_zero (b : Bytes) : ¬BehindNul b 0 := by
  rintro ⟨i, hi, -⟩
  omega

theorem copyString_succ (src dst : Bytes) (offset n : ℕ) :
    copyString src dst offset (n + 1) =
      if src 0 = 0 then Function.update dst offset (src 0)
      else copyString (shift src 1) (Function.update dst offset (src 0)) (offset + 1) n := by
  funext a
  rcases Nat.lt_trichotomy a offset with hlt | rfl | hgt
  · split_ifs with h0
    · rw [copyString, if_neg (by omega), Function.update_of_ne (by omega)]
    · rw [copyString, copyString, if_neg (by omega), if_neg (by omega),
        Function.update_of_ne (by omega)]
  · have hin : a ≤ a ∧ a < a + (n + 1) ∧ ¬BehindNul src (a - a) :=
      ⟨le_rfl, by omega, by rw [Nat.sub_self]; exact not_behindNul_zero src⟩
    rw [copyString, if_pos hin, Nat.sub_self]
    split_ifs with h0
    · rw [Function.update_self]
    · rw [copyString, if_neg (by omega), Function.update_self]
  · obtain ⟨j, rfl⟩ : ∃ j, a = offset + 1 + j := ⟨a - (offset + 1), by omega⟩
    have hsub : offset + 1 + j - offset = j + 1 := by omega
    have hsub' : offset + 1 + j - (offset + 1) = j := by omega
    have hsrc : shift src 1 j = src (j + 1) := by rw [shift, add_comm]
    have hne : offset + 1 + j ≠ offset := by omega
    split_ifs with h0
    · have hbehind : BehindNul src (j + 1) := (behindNul_succ src j).mpr (.inl h0)
      rw [copyString, hsub, if_neg (fun h => h.2.2 hbehind), Function.update_of_ne hne]
    · have hiff : BehindNul src (j + 1) ↔ BehindNul (shift src 1) j := by
        rw [behindNul_succ]
        simp [h0]
      rw [copyString, copyString, hsub, hsub', hsrc, Function.update_of_ne hne]
      refine if_congr ⟨?_, ?_⟩ rfl rfl
      · rintro ⟨-, h, hb⟩
        exact ⟨by omega, by omega, mt hiff.mpr hb⟩
      · rintro ⟨-, h, hb⟩
        exact ⟨by omega, by omega, mt hiff.mp hb⟩

theorem behindNul_congr {b b' : Bytes} {n j : ℕ} (h : ∀ i < n, b i = b' i) (hj : j < n) :
    BehindNul b j ↔ BehindNul b' j := by
  constructor
  · rintro ⟨i, hi, h0⟩
    exact ⟨i, hi, (h i (by omega)).symm.trans h0⟩
  · rintro ⟨i, hi, h0⟩
    exact ⟨i, hi, (h i (by omega)).trans h0⟩

theorem copyString_src_congr {src src' : Bytes} {n : ℕ} (h : ∀ j < n, src j = src' j)
    (dst : Bytes) (offset : ℕ) : copyString src dst offset n = copyString src' dst offset n := by
  funext a
  unfold copyString
  by_cases ha : offset ≤ a ∧ a < offset + n
  · have hj : a - offset < n := by omega
    rw [h _ hj]
    simp only [behindNul_congr h hj]
  · rw [if_neg (by omega), if_neg (by omega)]

theorem copyString_congr {src dst dst' : Bytes} {offset n m : ℕ} (h : ∀ i < m, dst i = dst' i)
    {i : ℕ} (hi : i < m) : copyString src dst offset n i = copyString src dst' offset n i := by
  unfold copyString
  rw [h i hi]

end Buffers
